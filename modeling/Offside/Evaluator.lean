import Offside.Evaluator.State

/-!
The evaluator. A statement completes normally or passes `return`, `break` or `continue` outward;
a list of statements ends at the first that does not complete normally, loops take up `break` and
`continue`, and calls take up `return`. An error gets the place of the innermost node around it.
-/

namespace Offside

inductive Completion where
  | normal
  | returned (v : Value)
  | broken
  | continued
  deriving Inhabited

namespace Node

def target? : Node → Option Node
  | index _ target _ | member _ target _ | assign _ target _ | augAssign _ target _ _
  | delete _ target => some target
  | _ => none

def indexOf? : Node → Option Node
  | index _ _ i => some i
  | _ => none

end Node

namespace Evaluator

open Run

/-- Executes statements up to the first that does not complete normally. -/
def runBlock (execute : Node → Run Completion) : List Node → Run Completion
  | [] => return .normal
  | node :: rest => do
    match ← execute node with
    | .normal => runBlock execute rest
    | completion => return completion

def runFor (body : Value → Run Completion) : List Value → Run Completion
  | [] => return .normal
  | item :: rest => do
    match ← body item with
    | .broken => return .normal
    | .returned v => return .returned v
    | _ => runFor body rest

/-- The place of a node; a hole has none. -/
def place (node : Node) : Run Place :=
  match node.pos? with
  | some p => return p
  | none => fault (.missingPart node.kindName "line")

/-- A value that has to be a Boolean; if it is not, the error is at `p`. -/
def booleanAt (p : Place) (test : Test) (v : Value) : Run Bool :=
  located p (ofOperation (Operation.boolean test v))

def bindMethod (set : Settings) (target : Value) (name : Json) : Run Value := do
  let owner := match target with
    | .string _ => some "str."
    | .list _ => some "list."
    | .mapping _ => some "map."
    | _ => none
  match owner with
  | some owner =>
    let method := owner ++ name.plain
    if set.registry.contains method then return .bound method target
    else refuse (.noMember target.kind name.display)
  | none => refuse (.noMember target.kind name.display)

def argumentText (h : Heap) (args : List Value) : String := ", ".intercalate (args.map h.display)

def refusedBy (name : String) : Refusal → Stop
  | .failure f => .error { cause := .builtinFailed name f.message }
  | .fault f =>
    if f.concernsValue then .error { cause := .builtinFailed name f.message } else .fault f

/-- A builtin always has a result of the language. -/
def resultOf : Value → Value
  | .foreign .null => .none
  | v => v

def callBuiltin (set : Settings) (name : String) (args : List Value) : Run Value := do
  match set.registry.find? name with
  | none => refuse (.unknownBuiltin name)
  | some builtin =>
    traceAt set 1 fun h => "builtin " ++ name ++ "(" ++ argumentText h args ++ ")"
    newResult (resultOf (← onWorld (refusedBy name) (builtin.call args)))

/-- Applies a binary operator; only a text can be one. -/
def applyBinary (op : Json) (a b : Value) : Run Value := do
  match op with
  | .string op => newResult (← ofOperation (Operation.binary (← heap) op a b))
  | op => refuse (.unknownOperator op.plain)

def applyUnary (op : Json) (v : Value) : Run Value := do
  match op with
  | .string op => newResult (← ofOperation (Operation.unary op v))
  | op => refuse (.unknownUnaryOperator op.plain)

def placeText (node : Node) : String := node.pos.text ++ ": "

def assignName (set : Settings) (s : Nat) (name : Json) (v : Value) : Run Unit := do
  assign s name v
  traceAt set 2 fun h => "assign " ++ name.plain ++ " = " ++ h.display v

/-- The first part of a list of names that is no text, and where it stands. -/
def strayName? (names : List Json) : Option (Nat × Json) :=
  names.zipIdx.findSome? fun (name, i) =>
    match name with
    | .string _ => none
    | _ => some (i, name)

def traceFunction (set : Settings) (name : Json) (params : List Json) : Run Unit :=
  if 2 ≤ set.traceLevel then
    match strayName? params with
    | some (i, param) => fault (.notAText i param.typeName)
    | none => traceAt set 2 fun _ =>
      "define function " ++ name.plain ++ "(" ++ ", ".intercalate (params.map Json.plain) ++ ")"
  else pure ()

mutual

def evaluate (set : Settings) : Nat → Node → Nat → Run Value
  | 0, _, _ => throw .starved
  | fuel + 1, node, s => do
    let p ← place node
    located p <| match node with
    | .literal _ value kind => return if kind.isText "None" then .none else .ofJson value
    | .identifier _ name => lookUp s name
    | .binaryOp _ op left right => do
      if op.isText "and" || op.isText "or" then
        let test := Test.operand op.plain
        let a ← booleanAt left.pos test (← evaluate set fuel left s)
        if a == op.isText "or" then return .boolean a
        else return .boolean (← booleanAt right.pos test (← evaluate set fuel right s))
      else
        let a ← evaluate set fuel left s
        let b ← evaluate set fuel right s
        applyBinary op a b
    | .unaryOp _ op operand => do applyUnary op (← evaluate set fuel operand s)
    | .call _ func args => do
      let f ← evaluate set fuel func s
      callValue set fuel f (← args.mapM fun arg => evaluate set fuel arg s)
    | .index _ target index => do
      let target ← evaluate set fuel target s
      let index ← evaluate set fuel index s
      ofOperation (Operation.getItem (← heap) target index)
    | .member _ target name => do
      bindMethod set (← evaluate set fuel target s) name
    | .listLiteral _ elements => do
      newList (← elements.mapM fun element => evaluate set fuel element s)
    | .mapLiteral _ entries => do
      let pairs ← entries.mapM fun (key, value) => do
        let k ← evaluate set fuel key s
        located key.pos (ofOperation (Operation.checkKey k))
        return (k, ← evaluate set fuel value s)
      newMapping (.ofEntries pairs)
    | .lambda _ params body => do
      newFunction "<lambda>" ⟨params, [.returnStmt (← place body) body], s⟩
    | _ => refuse (.notAnExpression node.kindName)

def callValue (set : Settings) : Nat → Value → List Value → Run Value
  | 0, _, _ => throw .starved
  | fuel + 1, f, args => do
    match f with
    | .function id name =>
      let closure := (← get).closures[id]?.getD default
      if args.length ≠ closure.params.length then
        refuse (.arityMismatch name closure.params.length args.length)
      let depth := (← get).depth
      if set.maxDepth ≤ depth then refuse (.tooDeep set.maxDepth name)
      let inner ← child closure.scope
      (closure.params.zip args).forM fun (param, arg) => define inner param arg
      traceAt set 1 fun h =>
        "call " ++ name ++ "(" ++ argumentText h args ++ ") depth=" ++ toString (depth + 1)
      match ← deeper (runBlock (execute set fuel · inner) closure.body) with
      | .returned v => return v
      | _ => return .none
    | .native name => callBuiltin set name args
    | .bound name receiver => callBuiltin set name (receiver :: args)
    | _ => refuse (.notCallable f.kind)

def execute (set : Settings) : Nat → Node → Nat → Run Completion
  | 0, _, _ => throw .starved
  | fuel + 1, node, s => do
    let p ← place node
    located p do
      traceAt set 4 fun _ => placeText node ++ node.kindName
      match node with
      | .exprStmt _ expr =>
        let _ ← evaluate set fuel expr s
        return .normal
      | .assign _ target value =>
        let v ← evaluate set fuel value s
        match target with
        | .identifier _ name => assignName set s name v
        | .index _ container key =>
          let container ← evaluate set fuel container s
          let key ← evaluate set fuel key s
          modifyHeap (← ofOperation (Operation.itemSetting (← heap) container key v))
        | _ => refuse .badTarget
        return .normal
      | .augAssign _ target op value =>
        match target with
        | .identifier _ name =>
          let current ← evaluate set fuel target s
          let v ← evaluate set fuel value s
          assignName set s name (← applyBinary op current v)
        | _ =>
          let container ← evaluatePart set fuel target "target" target.target? s
          let key ← evaluatePart set fuel target "index" target.indexOf? s
          let current ← ofOperation (Operation.getItem (← heap) container key)
          let v ← evaluate set fuel value s
          let result ← applyBinary op current v
          modifyHeap (← ofOperation (Operation.itemSetting (← heap) container key result))
        return .normal
      | .ifStmt _ branches elseBody => chooseBranch set fuel node branches elseBody s
      | .whileStmt _ condition body => repeatWhile set fuel node condition body 1 s
      | .forStmt _ name iterable body =>
        let iterable ← evaluate set fuel iterable s
        let items ← ofOperation (Operation.iterationItems (← heap) iterable)
        runFor
          (fun item => do
            define s name item
            traceAt set 3 fun h => placeText node ++ "for " ++ name.plain ++ " = " ++ h.display item
            runBlock (execute set fuel · s) body)
          items
      | .functionDef _ name params body =>
        define s name (← newFunction name.plain ⟨params, body, s⟩)
        traceFunction set name params
        return .normal
      | .returnStmt _ value =>
        match value with
        | .hole => return .returned .none
        | _ => return .returned (← evaluate set fuel value s)
      | .breakStmt _ => return .broken
      | .continueStmt _ => return .continued
      | .passStmt _ => return .normal
      | .delete _ target =>
        let container ← evaluatePart set fuel target "target" target.target? s
        let key ← evaluatePart set fuel target "index" target.indexOf? s
        modifyHeap (← ofOperation (Operation.itemDeletion (← heap) container key))
        return .normal
      | _ => refuse (.notAStatement node.kindName)

/-- The value of a part of `owner`, which has to have it. -/
def evaluatePart (set : Settings) : Nat → Node → String → Option Node → Nat → Run Value
  | 0, _, _, _, _ => throw .starved
  | fuel + 1, owner, name, part, s =>
    match part with
    | some node => evaluate set fuel node s
    | none => fault (.missingPart owner.kindName name)

def evaluateTest (set : Settings) : Nat → Test → Node → Nat → Run Bool
  | 0, _, _, _ => throw .starved
  | fuel + 1, test, condition, s => do
    booleanAt condition.pos test (← evaluate set fuel condition s)

def chooseBranch (set : Settings) :
    Nat → Node → List (Node × List Node) → Option (List Node) → Nat → Run Completion
  | 0, _, _, _, _ => throw .starved
  | _ + 1, _, [], none, _ => return .normal
  | fuel + 1, node, [], some body, s => do
    traceAt set 3 fun _ => placeText node ++ "else branch"
    runBlock (execute set fuel · s) body
  | fuel + 1, node, (condition, body) :: rest, elseBody, s => do
    let taken ← evaluateTest set fuel .ifCondition condition s
    traceAt set 3 fun h => placeText condition ++ "branch -> " ++ h.display (.boolean taken)
    if taken then runBlock (execute set fuel · s) body
    else chooseBranch set fuel node rest elseBody s

/-- Executes a loop body while the condition holds; `round` counts the times. -/
def repeatWhile (set : Settings) : Nat → Node → Node → List Node → Nat → Nat → Run Completion
  | 0, _, _, _, _, _ => throw .starved
  | fuel + 1, node, condition, body, round, s => do
    if ← evaluateTest set fuel .whileCondition condition s then
      traceAt set 3 fun _ => placeText node ++ "while iteration " ++ toString round
      match ← runBlock (execute set fuel · s) body with
      | .broken => return .normal
      | .returned v => return .returned v
      | _ => repeatWhile set fuel node condition body (round + 1) s
    else return .normal

end

end Evaluator

end Offside
