import Offside.Evaluator

/-!
The evaluator opened up. What a task does with one unit of fuel is a script: actions of its own and
further tasks, one after another. The evaluator plays the scripts of its tasks with one unit of
fuel less, so that what holds of every run is shown of scripts, and a rule of the evaluator is
unfolded here only.
-/

namespace Offside

/-- The value of a call whose body completed so. -/
def Completion.value : Completion → Value
  | .returned v => v
  | _ => .none

namespace Evaluator

open Run

/-- Tasks that complete as a statement does. -/
inductive Work where
  | execute (node : Node) (s : Nat)
  | branches (node : Node) (branches : List (Node × List Node)) (elseBody : Option (List Node))
      (s : Nat)
  | rounds (node condition : Node) (body : List Node) (round s : Nat)

/-- What the evaluator calls itself for. -/
inductive Task where
  | evaluate (node : Node) (s : Nat)
  | part (owner : Node) (name : String) (node : Option Node) (s : Nat)
  | test (kind : Test) (condition : Node) (s : Nat)
  | call (f : Value) (args : List Value)
  | work (w : Work)

@[reducible] def Task.Result : Task → Type
  | evaluate .. | part .. | call .. => Value
  | test .. => Bool
  | work _ => Completion

def Work.run (set : Settings) (fuel : Nat) : Work → Run Completion
  | execute node s => Evaluator.execute set fuel node s
  | branches node bs elseBody s => chooseBranch set fuel node bs elseBody s
  | rounds node condition body round s => repeatWhile set fuel node condition body round s

def Task.run (set : Settings) (fuel : Nat) : (t : Task) → Run t.Result
  | evaluate node s => Evaluator.evaluate set fuel node s
  | part owner name node s => evaluatePart set fuel owner name node s
  | test kind condition s => evaluateTest set fuel kind condition s
  | call f args => callValue set fuel f args
  | work w => w.run set fuel

/-- Actions and tasks with what comes after them. A part of a script may stand inside a node, which
gives its errors a place, or inside a call. -/
inductive Script : Type → Type 1 where
  | done {α : Type} (a : α) : Script α
  | act {α β : Type} (x : Run β) (next : β → Script α) : Script α
  | task {α : Type} (t : Task) (next : t.Result → Script α) : Script α
  | located {α β : Type} (p : Place) (inner : Script β) (next : β → Script α) : Script α
  | deeper {α β : Type} (inner : Script β) (next : β → Script α) : Script α

namespace Script

variable {α β γ : Type}

def andThen : Script α → (α → Script β) → Script β
  | done a, f => f a
  | act x next, f => act x fun b => (next b).andThen f
  | task t next, f => task t fun b => (next b).andThen f
  | located p inner next, f => located p inner fun b => (next b).andThen f
  | deeper inner next, f => deeper inner fun b => (next b).andThen f

instance : Monad Script where
  pure := done
  bind := andThen

def doing (x : Run α) : Script α := act x done

def inNode (p : Place) (inner : Script α) : Script α := located p inner done

def inCall (inner : Script α) : Script α := deeper inner done

def value (node : Node) (s : Nat) : Script Value := task (.evaluate node s) done

def part (owner : Node) (name : String) (node : Option Node) (s : Nat) : Script Value :=
  task (.part owner name node s) done

def test (kind : Test) (condition : Node) (s : Nat) : Script Bool :=
  task (.test kind condition s) done

def call (f : Value) (args : List Value) : Script Value := task (.call f args) done

def perform (w : Work) : Script Completion := task (.work w) done

def each (f : β → Script γ) : List β → Script (List γ)
  | [] => return []
  | b :: bs => do
    let c ← f b
    return c :: (← each f bs)

/-- Statements up to the first that does not complete normally. -/
def block (s : Nat) : List Node → Script Completion
  | [] => return .normal
  | node :: rest => do
    match ← perform (.execute node s) with
    | .normal => block s rest
    | completion => return completion

/-- What a script does when its tasks are done by `R`. -/
def play (R : (t : Task) → Run t.Result) {α : Type} : Script α → Run α
  | done a => pure a
  | act x next => x >>= fun b => (next b).play R
  | task t next => R t >>= fun b => (next b).play R
  | located p inner next => Run.located p (inner.play R) >>= fun b => (next b).play R
  | deeper inner next => Run.deeper (inner.play R) >>= fun b => (next b).play R

section

variable {R : (t : Task) → Run t.Result}

-- Opened here only: what follows goes by the lemmas of this section.
attribute [local simp] play andThen

@[simp] theorem play_pure (a : α) : (pure a : Script α).play R = pure a := rfl

@[simp] theorem play_bind (p : Script α) (f : α → Script β) :
    (p >>= f).play R = p.play R >>= fun a => (f a).play R := by
  change (p.andThen f).play R = _
  induction p with
  | done a => simp
  | act x next ih | task t next ih | located p inner next _ ih | deeper inner next _ ih =>
    simp only [andThen, play, bind_assoc, ih]

@[simp] theorem play_ite (p : Prop) [Decidable p] (a b : Script α) :
    (if p then a else b).play R = if p then a.play R else b.play R := by
  split <;> rfl

@[simp] theorem play_doing (x : Run α) : (doing x).play R = x := by simp [doing]

@[simp] theorem play_inNode (p : Place) (inner : Script α) :
    (inNode p inner).play R = Run.located p (inner.play R) := by simp [inNode]

@[simp] theorem play_inCall (inner : Script α) :
    (inCall inner).play R = Run.deeper (inner.play R) := by simp [inCall]

@[simp] theorem play_value (node : Node) (s : Nat) :
    (value node s).play R = R (.evaluate node s) := by simp [value]

@[simp] theorem play_part (owner : Node) (name : String) (p : Option Node) (s : Nat) :
    (part owner name p s).play R = R (.part owner name p s) := by simp [part]

@[simp] theorem play_test (t : Test) (condition : Node) (s : Nat) :
    (test t condition s).play R = R (.test t condition s) := by simp [test]

@[simp] theorem play_call (f : Value) (args : List Value) :
    (call f args).play R = R (.call f args) := by simp [call]

@[simp] theorem play_perform (w : Work) : (perform w).play R = R (.work w) := by
  simp [perform]

@[simp] theorem play_each (f : β → Script γ) (bs : List β) :
    (each f bs).play R = bs.mapM fun b => (f b).play R := by
  induction bs with
  | nil => rfl
  | cons b bs ih => simp [each, ih]

@[simp] theorem play_block (s : Nat) (ns : List Node) :
    (block s ns).play R = runBlock (fun node => R (.work (.execute node s))) ns := by
  induction ns with
  | nil => rfl
  | cons node rest ih =>
    rw [block, runBlock, play_bind, play_perform]
    refine bind_congr fun completion => ?_
    cases completion with
    | normal => exact ih
    | _ => rfl

end

end Script

open Script

/-! ### Expressions -/

def entryScript (s : Nat) (e : Node × Node) : Script (Value × Value) := do
  let k ← value e.1 s
  doing (located e.1.pos (ofOperation (Operation.checkKey k)))
  return (k, ← value e.2 s)

def binaryScript (op : Json) (left right : Node) (s : Nat) : Script Value := do
  if op.isText "and" || op.isText "or" then
    let test := Test.operand op.plain
    let a ← doing (booleanAt left.pos test (← value left s))
    if a == op.isText "or" then return .boolean a
    else return .boolean (← doing (booleanAt right.pos test (← value right s)))
  else
    let a ← value left s
    let b ← value right s
    doing (applyBinary op a b)

def readItem (target index : Value) : Run Value := do
  ofOperation (Operation.getItem (← heap) target index)

/-- What is done inside a node to evaluate it. -/
def valueScript (set : Settings) (node : Node) (s : Nat) : Script Value :=
  match node with
  | .literal _ value kind => return if kind.isText "None" then .none else .ofJson value
  | .identifier _ name => doing (lookUp s name)
  | .binaryOp _ op left right => binaryScript op left right s
  | .unaryOp _ op operand => do doing (applyUnary op (← value operand s))
  | .call _ func args => do
    let f ← value func s
    call f (← each (value · s) args)
  | .index _ target index => do
    let target ← value target s
    doing (readItem target (← value index s))
  | .member _ target name => do doing (bindMethod set (← value target s) name)
  | .listLiteral _ elements => do doing (newList (← each (value · s) elements))
  | .mapLiteral _ entries => do doing (newMapping (.ofEntries (← each (entryScript s) entries)))
  | .lambda _ params body => do
    let p ← doing (place body)
    doing (newFunction "<lambda>" ⟨params, [.returnStmt p body], s⟩)
  | _ => doing (refuse (.notAnExpression node.kindName))

/-! ### Calls -/

def closureOf (id : Nat) : Run Closure := do return (← get).closures[id]?.getD default

def checkArity (name : String) (closure : Closure) (args : List Value) : Run Unit :=
  if args.length ≠ closure.params.length then
    refuse (.arityMismatch name closure.params.length args.length)
  else pure ()

def checkDepth (limit : Int) (name : String) : Run Unit := do
  if limit ≤ (← get).depth then refuse (.tooDeep limit name)

/-- A new scope for a call, with its parameters bound. -/
def enter (set : Settings) (name : String) (closure : Closure) (args : List Value) : Run Nat := do
  let depth := (← get).depth
  let inner ← child closure.scope
  (closure.params.zip args).forM fun (param, arg) => define inner param arg
  traceAt set 1 fun h =>
    "call " ++ name ++ "(" ++ argumentText h args ++ ") depth=" ++ toString (depth + 1)
  return inner

def callScript (set : Settings) (f : Value) (args : List Value) : Script Value :=
  match f with
  | .function id name => do
    let closure ← doing (closureOf id)
    doing (checkArity name closure args)
    doing (checkDepth set.maxDepth name)
    let inner ← doing (enter set name closure args)
    return (← inCall (block inner closure.body)).value
  | .native name => doing (callBuiltin set name args)
  | .bound name receiver => doing (callBuiltin set name (receiver :: args))
  | _ => doing (refuse (.notCallable f.kind))

/-! ### Statements -/

def writeItem (container key v : Value) : Run Unit := do
  modifyHeap (← ofOperation (Operation.itemSetting (← heap) container key v))

def deleteItem (container key : Value) : Run Unit := do
  modifyHeap (← ofOperation (Operation.itemDeletion (← heap) container key))

def itemsOf (v : Value) : Run (List Value) := do
  ofOperation (Operation.iterationItems (← heap) v)

/-- Binds the name of a loop to the item of this round. -/
def visit (set : Settings) (node : Node) (name : Json) (s : Nat) (item : Value) : Run Unit := do
  define s name item
  traceAt set 3 fun h => placeText node ++ "for " ++ name.plain ++ " = " ++ h.display item

/-- The rounds of a loop over items. -/
def visits (set : Settings) (node : Node) (name : Json) (body : List Node) (s : Nat) :
    List Value → Script Completion
  | [] => return .normal
  | item :: rest => do
    doing (visit set node name s item)
    match ← block s body with
    | .broken => return .normal
    | .returned v => return .returned v
    | _ => visits set node name body s rest

def assignScript (set : Settings) (target : Node) (v : Value) (s : Nat) : Script Completion := do
  match target with
  | .identifier _ name => doing (assignName set s name v)
  | .index _ container key =>
    let container ← value container s
    doing (writeItem container (← value key s) v)
  | _ => doing (refuse .badTarget)
  return .normal

def augmentScript (set : Settings) (target : Node) (op : Json) (node : Node) (s : Nat) :
    Script Completion := do
  match target with
  | .identifier _ name =>
    let current ← value target s
    let v ← value node s
    doing (assignName set s name (← doing (applyBinary op current v)))
  | _ =>
    let container ← part target "target" target.target? s
    let key ← part target "index" target.indexOf? s
    let current ← doing (readItem container key)
    let v ← value node s
    doing (writeItem container key (← doing (applyBinary op current v)))
  return .normal

def returnScript (node : Node) (s : Nat) : Script Completion :=
  match node with
  | .hole => return .returned .none
  | _ => do return .returned (← value node s)

/-- What is done inside a node to execute it. -/
def statementScript (set : Settings) (node : Node) (s : Nat) : Script Completion :=
  match node with
  | .exprStmt _ expr => do
    let _ ← value expr s
    return .normal
  | .assign _ target node => do
    let v ← value node s
    assignScript set target v s
  | .augAssign _ target op node => augmentScript set target op node s
  | .ifStmt _ branches elseBody => perform (.branches node branches elseBody s)
  | .whileStmt _ condition body => perform (.rounds node condition body 1 s)
  | .forStmt _ name iterable body => do
    let iterable ← value iterable s
    visits set node name body s (← doing (itemsOf iterable))
  | .functionDef _ name params body => do
    let f ← doing (newFunction name.plain ⟨params, body, s⟩)
    doing (define s name f)
    doing (traceFunction set name params)
    return .normal
  | .returnStmt _ node => returnScript node s
  | .breakStmt _ => return .broken
  | .continueStmt _ => return .continued
  | .passStmt _ => return .normal
  | .delete _ target => do
    let container ← part target "target" target.target? s
    let key ← part target "index" target.indexOf? s
    doing (deleteItem container key)
    return .normal
  | _ => doing (refuse (.notAStatement node.kindName))

def branchScript (set : Settings) (node : Node) (bs : List (Node × List Node))
    (elseBody : Option (List Node)) (s : Nat) : Script Completion :=
  match bs, elseBody with
  | [], none => return .normal
  | [], some body => do
    doing (traceAt set 3 fun _ => placeText node ++ "else branch")
    block s body
  | (condition, body) :: rest, elseBody => do
    let taken ← test .ifCondition condition s
    doing (traceAt set 3 fun h => placeText condition ++ "branch -> " ++ h.display (.boolean taken))
    if taken then block s body else perform (.branches node rest elseBody s)

def roundScript (set : Settings) (node condition : Node) (body : List Node) (round s : Nat) :
    Script Completion := do
  if ← test .whileCondition condition s then
    doing (traceAt set 3 fun _ => placeText node ++ "while iteration " ++ toString round)
    match ← block s body with
    | .broken => return .normal
    | .returned v => return .returned v
    | _ => perform (.rounds node condition body (round + 1) s)
  else return .normal

def Work.script (set : Settings) : Work → Script Completion
  | execute node s => do
    let p ← doing (place node)
    inNode p do
      doing (traceAt set 4 fun _ => placeText node ++ node.kindName)
      statementScript set node s
  | branches node bs elseBody s => branchScript set node bs elseBody s
  | rounds node condition body round s => roundScript set node condition body round s

def Task.script (set : Settings) : (t : Task) → Script t.Result
  | evaluate node s => do
    let p ← doing (place node)
    inNode p (valueScript set node s)
  | part owner name node s =>
    match node with
    | some node => value node s
    | none => doing (fault (.missingPart owner.kindName name))
  | test kind condition s => do doing (booleanAt condition.pos kind (← value condition s))
  | call f args => callScript set f args
  | work w => w.script set

/-! ### The evaluator plays its scripts -/

section

variable (set : Settings) (fuel : Nat)

@[simp] theorem run_evaluate (node : Node) (s : Nat) :
    Task.run set fuel (.evaluate node s) = evaluate set fuel node s := rfl

@[simp] theorem run_part (owner : Node) (name : String) (node : Option Node) (s : Nat) :
    Task.run set fuel (.part owner name node s) = evaluatePart set fuel owner name node s := rfl

@[simp] theorem run_test (kind : Test) (condition : Node) (s : Nat) :
    Task.run set fuel (.test kind condition s) = evaluateTest set fuel kind condition s := rfl

@[simp] theorem run_call (f : Value) (args : List Value) :
    Task.run set fuel (.call f args) = callValue set fuel f args := rfl

@[simp] theorem run_execute (node : Node) (s : Nat) :
    Task.run set fuel (.work (.execute node s)) = execute set fuel node s := rfl

@[simp] theorem run_branches (node : Node) (bs : List (Node × List Node))
    (elseBody : Option (List Node)) (s : Nat) :
    Task.run set fuel (.work (.branches node bs elseBody s)) =
      chooseBranch set fuel node bs elseBody s := rfl

@[simp] theorem run_rounds (node condition : Node) (body : List Node) (round s : Nat) :
    Task.run set fuel (.work (.rounds node condition body round s)) =
      repeatWhile set fuel node condition body round s := rfl

theorem evaluate_succ (node : Node) (s : Nat) :
    evaluate set (fuel + 1) node s =
      ((Task.evaluate node s).script set).play (Task.run set fuel) := by
  simp only [Task.script, play_bind, play_doing, play_inNode]
  cases node
  case index =>
    simp only [evaluate, valueScript, play_bind, play_value, play_doing, run_evaluate]
    rfl
  all_goals simp [evaluate, valueScript, binaryScript, entryScript]

theorem refuse_bind {α β : Type} (c : Cause) (f : α → Run β) :
    (refuse c >>= f) = refuse c := rfl

theorem get_bind {α : Type} (f : State → Run α) (st : State) :
    ((get : Run State) >>= f) st = f st st := rfl

theorem call_succ (f : Value) (args : List Value) :
    callValue set (fuel + 1) f args =
      ((Task.call f args).script set).play (Task.run set fuel) := by
  simp only [Task.script]
  cases f
  case function id name =>
    simp only [callValue, callScript, closureOf, checkArity, checkDepth, enter, play_bind,
      play_doing, play_inCall, play_block, play_pure, bind_assoc, pure_bind, run_execute]
    funext st
    simp only [get_bind]
    by_cases harity : args.length = (st.closures[id]?.getD default).params.length
    · by_cases hdepth : set.maxDepth ≤ st.depth
      · simp [harity, hdepth, refuse_bind, get_bind]
      · simp only [harity, hdepth, ne_eq, not_true_eq_false, if_false, pure_bind, get_bind]
        refine congrFun (bind_congr fun inner => bind_congr fun _ => bind_congr fun _ => ?_) st
        exact bind_congr fun completion => by cases completion <;> rfl
    · simp [harity, refuse_bind]
  all_goals simp [callValue, callScript]

theorem visits_play (node : Node) (name : Json) (body : List Node) (s : Nat)
    (items : List Value) :
    (visits set node name body s items).play (Task.run set fuel) =
      runFor (fun item => do
        visit set node name s item
        runBlock (execute set fuel · s) body) items := by
  induction items with
  | nil => rfl
  | cons item rest ih =>
    rw [visits, runFor]
    simp only [play_bind, play_doing, play_block, bind_assoc, run_execute]
    refine bind_congr fun _ => bind_congr fun completion => ?_
    cases completion <;> first | rfl | exact ih

theorem execute_succ (node : Node) (s : Nat) :
    execute set (fuel + 1) node s =
      ((Task.work (.execute node s)).script set).play (Task.run set fuel) := by
  simp only [Task.script, Work.script, play_bind, play_doing, play_inNode]
  cases node
  case assign p target node =>
    cases target <;> simp [execute, statementScript, assignScript, writeItem]
  case augAssign p target op node =>
    cases target <;> simp [execute, statementScript, augmentScript, readItem, writeItem]
  case returnStmt p node =>
    cases node <;> simp [execute, statementScript, returnScript]
  all_goals simp [execute, statementScript, visits_play, visit, itemsOf, deleteItem]

theorem branches_succ (node : Node) (bs : List (Node × List Node))
    (elseBody : Option (List Node)) (s : Nat) :
    chooseBranch set (fuel + 1) node bs elseBody s =
      ((Task.work (.branches node bs elseBody s)).script set).play (Task.run set fuel) := by
  rcases bs with _ | ⟨⟨condition, body⟩, rest⟩
  · cases elseBody <;> simp [chooseBranch, Task.script, Work.script, branchScript]
  · simp [chooseBranch, Task.script, Work.script, branchScript]

theorem rounds_succ (node condition : Node) (body : List Node) (round s : Nat) :
    repeatWhile set (fuel + 1) node condition body round s =
      ((Task.work (.rounds node condition body round s)).script set).play (Task.run set fuel) := by
  simp only [repeatWhile, Task.script, Work.script, roundScript, play_bind, play_test, play_ite,
    play_doing, play_block, play_pure, run_test, run_execute]
  refine bind_congr fun holds => ?_
  congr 1
  refine bind_congr fun _ => bind_congr fun completion => ?_
  cases completion <;> simp

theorem part_succ (owner : Node) (name : String) (node : Option Node) (s : Nat) :
    evaluatePart set (fuel + 1) owner name node s =
      ((Task.part owner name node s).script set).play (Task.run set fuel) := by
  cases node <;> simp [evaluatePart, Task.script]

theorem test_succ (kind : Test) (condition : Node) (s : Nat) :
    evaluateTest set (fuel + 1) kind condition s =
      ((Task.test kind condition s).script set).play (Task.run set fuel) := by
  simp [evaluateTest, Task.script]

/-- With no fuel a task stops at once; with some it plays its script. -/
theorem run_zero (t : Task) : t.run set 0 = throw .starved := by
  cases t with
  | evaluate node s => rw [run_evaluate, evaluate]
  | part owner name node s => rw [run_part, evaluatePart]
  | test kind condition s => rw [run_test, evaluateTest]
  | call f args => rw [run_call, callValue]
  | work w =>
    cases w with
    | execute node s => rw [run_execute, execute]
    | branches node bs elseBody s => rw [run_branches, chooseBranch]
    | rounds node condition body round s => rw [run_rounds, repeatWhile]

theorem run_succ (t : Task) : t.run set (fuel + 1) = (t.script set).play (Task.run set fuel) := by
  cases t with
  | evaluate node s => exact evaluate_succ set fuel node s
  | part owner name node s => exact part_succ set fuel owner name node s
  | test kind condition s => exact test_succ set fuel kind condition s
  | call f args => exact call_succ set fuel f args
  | work w =>
    cases w with
    | execute node s => exact execute_succ set fuel node s
    | branches node bs elseBody s => exact branches_succ set fuel node bs elseBody s
    | rounds node condition body round s => exact rounds_succ set fuel node condition body round s

end

end Evaluator

end Offside
