import Offside.Proofs.Evaluator.Twin

/-!
Runs side by side. The scripts of a task at two levels of detail take the same steps, so that from
states side by side they come to the same outcome, as long as no task of the first run calls a
builtin that has to do with the disk.
-/

namespace Offside.Evaluator

open Run

/-- A task that is the same at every level of detail: a builtin that it calls has nothing to do with
the disk, and the parameters of a function that it defines are texts. -/
def Task.Usual (registry : Registry) : Task → Prop
  | call (.native name) _ | call (.bound name _) _ =>
    ∀ b, registry.find? name = some b → Library.IsOffDisk b
  | work (.execute (.functionDef _ _ params _) _) => strayName? params = none
  | _ => True

/-- Two scripts that do the same tasks, with actions in step in between. -/
inductive Parallel (D : Detail) : {α : Type} → Script α → Script α → Prop where
  | done {α : Type} {a : α} : Parallel D (.done a) (.done a)
  | act {α β : Type} {x x' : Run β} {next next' : β → Script α} : InStep D x x' →
      (∀ b, Parallel D (next b) (next' b)) → Parallel D (.act x next) (.act x' next')
  | task {α : Type} {t : Task} {next next' : t.Result → Script α} :
      (∀ b, Parallel D (next b) (next' b)) → Parallel D (.task t next) (.task t next')
  | located {α β : Type} {p : Place} {inner inner' : Script β} {next next' : β → Script α} :
      Parallel D inner inner' → (∀ b, Parallel D (next b) (next' b)) →
      Parallel D (.located p inner next) (.located p inner' next')
  | deeper {α β : Type} {inner inner' : Script β} {next next' : β → Script α} :
      Parallel D inner inner' → (∀ b, Parallel D (next b) (next' b)) →
      Parallel D (.deeper inner next) (.deeper inner' next')

variable {D : Detail} {set : Settings} {α β γ : Type} {s : Nat}

theorem parallel_pure (a : α) : Parallel D (pure a : Script α) (pure a) := .done

theorem parallel_bind {p p' : Script β} {f f' : β → Script α} (hp : Parallel D p p')
    (hf : ∀ b, Parallel D (f b) (f' b)) : Parallel D (p >>= f) (p' >>= f') := by
  change Parallel D (p.andThen f) (p'.andThen f')
  induction hp with
  | done => exact hf _
  | act hx _ ih => exact .act hx fun b => ih b hf
  | task _ ih => exact .task fun b => ih b hf
  | located hi _ _ ih => exact .located hi fun b => ih b hf
  | deeper hi _ _ ih => exact .deeper hi fun b => ih b hf

theorem parallel_doing {x x' : Run α} (h : InStep D x x') :
    Parallel D (Script.doing x) (Script.doing x') :=
  .act h fun _ => .done

theorem parallel_onHeap {x : Run α} (h : OnHeap x) :
    Parallel D (Script.doing x) (Script.doing x) :=
  parallel_doing (inStep_onHeap h)

theorem parallel_task (t : Task) : Parallel D (.task t .done) (.task t .done) :=
  .task fun _ => .done

theorem parallel_value (node : Node) (s : Nat) :
    Parallel D (Script.value node s) (Script.value node s) :=
  parallel_task _

theorem parallel_each {f : β → Script γ} (hf : ∀ b, Parallel D (f b) (f b)) (bs : List β) :
    Parallel D (Script.each f bs) (Script.each f bs) := by
  induction bs with
  | nil => exact parallel_pure _
  | cons b bs ih =>
    exact parallel_bind (hf b) fun c => parallel_bind ih fun cs => parallel_pure _

/-! ### Expressions -/

theorem binaryScript_parallel (op : Json) (left right : Node) (s : Nat) :
    Parallel D (binaryScript op left right s) (binaryScript op left right s) := by
  have hboolean (node : Node) (test : Test) (v : Value) :
      Parallel D (Script.doing (booleanAt node.pos test v)) (Script.doing (booleanAt _ test v)) :=
    parallel_doing (inStep_located _ (inStep_onHeap (onHeap_ofOperation _)))
  unfold binaryScript
  split
  · refine parallel_bind (parallel_task _) fun v => parallel_bind (hboolean left _ v) fun a => ?_
    split
    · exact parallel_pure _
    · refine parallel_bind (parallel_task _) fun v => ?_
      exact parallel_bind (hboolean right _ v) fun b => parallel_pure _
  · refine parallel_bind (parallel_task _) fun a => parallel_bind (parallel_task _) fun b => ?_
    exact parallel_onHeap (applyBinary_onHeap op a b)

theorem entryScript_parallel (s : Nat) (e : Node × Node) :
    Parallel D (entryScript s e) (entryScript s e) := by
  refine parallel_bind (parallel_task _) fun k => ?_
  refine parallel_bind (parallel_doing (inStep_located _ (inStep_onHeap (onHeap_ofOperation _))))
    fun _ => ?_
  exact parallel_bind (parallel_task _) fun v => parallel_pure _

theorem valueScript_parallel (node : Node) (s : Nat) :
    Parallel D (valueScript (set.withTrace D.first) node s)
      (valueScript (set.withTrace D.second) node s) := by
  cases node with
  | literal => exact parallel_pure _
  | identifier => exact parallel_onHeap (lookUp_onHeap _ _)
  | unaryOp p op a =>
    exact parallel_bind (parallel_task _) fun v => parallel_onHeap (applyUnary_onHeap op v)
  | binaryOp p op a b => exact binaryScript_parallel op a b s
  | call p f as =>
    refine parallel_bind (parallel_task _) fun f => ?_
    exact parallel_bind (parallel_each (fun a => parallel_value a s) as) fun args => parallel_task _
  | index p t i =>
    refine parallel_bind (parallel_task _) fun t => parallel_bind (parallel_task _) fun i => ?_
    exact parallel_onHeap (readItem_onHeap t i)
  | member p t name =>
    exact parallel_bind (parallel_task _) fun t => parallel_onHeap (bindMethod_onHeap set t name)
  | listLiteral p es =>
    refine parallel_bind (parallel_each (fun e => parallel_value e s) es) fun vs => ?_
    exact parallel_onHeap (newList_onHeap vs)
  | mapLiteral p es =>
    refine parallel_bind (parallel_each (entryScript_parallel s) es) fun pairs => ?_
    exact parallel_onHeap (newMapping_onHeap _)
  | lambda p ps b =>
    refine parallel_bind (parallel_onHeap (place_onHeap b)) fun q => ?_
    exact parallel_doing (newFunction_inStep _ _)
  | _ => exact parallel_onHeap (onHeap_refuse _)

/-! ### Statements -/

theorem block_parallel (s : Nat) (ns : List Node) :
    Parallel D (Script.block s ns) (Script.block s ns) := by
  induction ns with
  | nil => exact parallel_pure _
  | cons n ns ih =>
    refine parallel_bind (parallel_task _) fun completion => ?_
    cases completion with
    | normal => exact ih
    | _ => exact parallel_pure _

theorem visits_parallel (node : Node) (name : Json) (body : List Node) (s : Nat)
    (items : List Value) :
    Parallel D (visits (set.withTrace D.first) node name body s items)
      (visits (set.withTrace D.second) node name body s items) := by
  induction items with
  | nil => exact parallel_pure _
  | cons item rest ih =>
    refine parallel_bind (parallel_doing (visit_inStep _ _ _ _)) fun _ => ?_
    refine parallel_bind (block_parallel s body) fun completion => ?_
    cases completion with
    | normal | continued => exact ih
    | _ => exact parallel_pure _

theorem assignScript_parallel (target : Node) (v : Value) (s : Nat) :
    Parallel D (assignScript (set.withTrace D.first) target v s)
      (assignScript (set.withTrace D.second) target v s) := by
  cases target with
  | identifier p name =>
    exact parallel_bind (parallel_doing (assignName_inStep _ _ _)) fun _ => parallel_pure _
  | index p c k =>
    refine parallel_bind (parallel_task _) fun c => parallel_bind (parallel_task _) fun k => ?_
    exact parallel_bind (parallel_onHeap (writeItem_onHeap _ _ _)) fun _ => parallel_pure _
  | _ => exact parallel_bind (parallel_onHeap (onHeap_refuse _)) fun _ => parallel_pure _

theorem augmentScript_parallel (target : Node) (op : Json) (node : Node) (s : Nat) :
    Parallel D (augmentScript (set.withTrace D.first) target op node s)
      (augmentScript (set.withTrace D.second) target op node s) := by
  cases target with
  | identifier p name =>
    refine parallel_bind (parallel_task _) fun current => ?_
    refine parallel_bind (parallel_task _) fun v => ?_
    refine parallel_bind (parallel_onHeap (applyBinary_onHeap _ _ _)) fun v => ?_
    exact parallel_bind (parallel_doing (assignName_inStep _ _ _)) fun _ => parallel_pure _
  | _ =>
    refine parallel_bind (parallel_task _) fun container => ?_
    refine parallel_bind (parallel_task _) fun key => ?_
    refine parallel_bind (parallel_onHeap (readItem_onHeap _ _)) fun current => ?_
    refine parallel_bind (parallel_task _) fun v => ?_
    refine parallel_bind (parallel_onHeap (applyBinary_onHeap _ _ _)) fun v => ?_
    exact parallel_bind (parallel_onHeap (writeItem_onHeap _ _ _)) fun _ => parallel_pure _

theorem statementScript_parallel {node : Node}
    (h : (Task.work (.execute node s)).Usual set.registry) :
    Parallel D (statementScript (set.withTrace D.first) node s)
      (statementScript (set.withTrace D.second) node s) := by
  cases node with
  | exprStmt p e => exact parallel_bind (parallel_task _) fun _ => parallel_pure _
  | assign p t v => exact parallel_bind (parallel_task _) fun v => assignScript_parallel t v s
  | augAssign p t op v => exact augmentScript_parallel t op v s
  | ifStmt p bs e => exact parallel_task _
  | whileStmt p c b => exact parallel_task _
  | forStmt p name i b =>
    refine parallel_bind (parallel_task _) fun v => ?_
    refine parallel_bind (parallel_onHeap (itemsOf_onHeap v)) fun items => ?_
    exact visits_parallel _ _ _ _ _
  | functionDef p name ps b =>
    refine parallel_bind (parallel_doing (newFunction_inStep _ _)) fun f => ?_
    refine parallel_bind (parallel_doing (define_inStep _ _ _)) fun _ => ?_
    exact parallel_bind (parallel_doing (traceFunction_inStep h name)) fun _ => parallel_pure _
  | returnStmt p v =>
    change Parallel D (returnScript v s) (returnScript v s)
    cases v with
    | hole => exact parallel_pure _
    | _ => exact parallel_bind (parallel_task _) fun v => parallel_pure _
  | breakStmt => exact parallel_pure _
  | continueStmt => exact parallel_pure _
  | passStmt => exact parallel_pure _
  | delete p t =>
    refine parallel_bind (parallel_task _) fun container => ?_
    refine parallel_bind (parallel_task _) fun key => ?_
    exact parallel_bind (parallel_onHeap (deleteItem_onHeap _ _)) fun _ => parallel_pure _
  | _ => exact parallel_onHeap (onHeap_refuse _)

theorem branchScript_parallel (node : Node) (bs : List (Node × List Node))
    (elseBody : Option (List Node)) (s : Nat) :
    Parallel D (branchScript (set.withTrace D.first) node bs elseBody s)
      (branchScript (set.withTrace D.second) node bs elseBody s) := by
  have htrace (line : Heap → String) :
      Parallel D (Script.doing (traceAt (set.withTrace D.first) 3 line))
        (Script.doing (traceAt (set.withTrace D.second) 3 line)) :=
    parallel_doing (traceAt_inStep (by decide) line)
  rcases bs with _ | ⟨⟨condition, body⟩, rest⟩
  · cases elseBody with
    | none => exact parallel_pure _
    | some body => exact parallel_bind (htrace _) fun _ => block_parallel s body
  · refine parallel_bind (parallel_task _) fun taken => parallel_bind (htrace _) fun _ => ?_
    split
    · exact block_parallel s body
    · exact parallel_task _

theorem roundScript_parallel (node condition : Node) (body : List Node) (round s : Nat) :
    Parallel D (roundScript (set.withTrace D.first) node condition body round s)
      (roundScript (set.withTrace D.second) node condition body round s) := by
  refine parallel_bind (parallel_task _) fun holds => ?_
  cases holds with
  | false => exact parallel_pure _
  | true =>
    refine parallel_bind (parallel_doing (traceAt_inStep (by decide) _)) fun _ => ?_
    refine parallel_bind (block_parallel s body) fun completion => ?_
    cases completion with
    | normal | continued => exact parallel_task _
    | _ => exact parallel_pure _

theorem callScript_parallel {f : Value} {args : List Value}
    (h : (Task.call f args).Usual set.registry) :
    Parallel D (callScript (set.withTrace D.first) f args)
      (callScript (set.withTrace D.second) f args) := by
  cases f with
  | function id name =>
    refine parallel_bind (parallel_doing (closureOf_inStep id)) fun closure => ?_
    refine parallel_bind (parallel_onHeap (checkArity_onHeap _ _ _)) fun _ => ?_
    refine parallel_bind (parallel_onHeap (checkDepth_onHeap _ _)) fun _ => ?_
    refine parallel_bind (parallel_doing (enter_inStep _ _ _)) fun inner => ?_
    refine parallel_bind ?_ fun _ => parallel_pure _
    exact .deeper (block_parallel inner closure.body) fun _ => .done
  | native name => exact parallel_doing (callBuiltin_inStep h _)
  | bound name receiver => exact parallel_doing (callBuiltin_inStep h _)
  | _ => exact parallel_onHeap (onHeap_refuse _)

/-- A usual task does the same at both levels of detail. -/
theorem script_parallel {t : Task} (h : t.Usual set.registry) :
    Parallel D (t.script (set.withTrace D.first)) (t.script (set.withTrace D.second)) := by
  cases t with
  | evaluate node s =>
    refine parallel_bind (parallel_onHeap (place_onHeap node)) fun p => ?_
    exact .located (valueScript_parallel node s) fun _ => .done
  | part owner name node s =>
    cases node with
    | none => exact parallel_onHeap (onHeap_fault _)
    | some node => exact parallel_task _
  | test kind condition s =>
    refine parallel_bind (parallel_task _) fun v => ?_
    exact parallel_doing (inStep_located _ (inStep_onHeap (onHeap_ofOperation _)))
  | call f args => exact callScript_parallel h
  | work w =>
    cases w with
    | execute node s =>
      refine parallel_bind (parallel_onHeap (place_onHeap node)) fun p => ?_
      refine .located ?_ fun _ => .done
      refine parallel_bind (parallel_doing (traceAt_inStep (by decide) _)) fun _ => ?_
      exact statementScript_parallel h
    | branches node bs elseBody s => exact branchScript_parallel _ _ _ _
    | rounds node condition body round s => exact roundScript_parallel _ _ _ _ _

/-! ### Runs -/

variable {fuel : Nat} {st st' : State}

/-- Parallel scripts come to the same outcome if the tasks that the first one begins do. -/
theorem play_alike {p p' : Script α} (hp : Parallel D p p') (hst : Twin D st st')
    (h : ∀ t now now', p.Begins (set.withTrace D.first) fuel t now st → Twin D now now' →
      Alike D (t.run (set.withTrace D.first) fuel now) (t.run (set.withTrace D.second) fuel now')) :
    Alike D (p.play (Task.run (set.withTrace D.first) fuel) st)
      (p'.play (Task.run (set.withTrace D.second) fuel) st') := by
  induction hp generalizing st st' with
  | done => exact .ok hst
  | act hx _ ih =>
    refine alike_bind (hx hst) fun b now now' hok hnow => ih b hnow ?_
    exact fun t _ _ hb => h t _ _ ⟨b, now, hok, hb⟩
  | @task _ t _ _ _ ih =>
    refine alike_bind (h t st st' (.inl ⟨rfl, rfl⟩) hst) fun b now now' hok hnow => ih b hnow ?_
    exact fun t _ _ hb => h t _ _ (.inr ⟨b, now, hok, hb⟩)
  | located _ _ ihinner ih =>
    have hinner := ihinner hst fun t _ _ hb => h t _ _ (.inl hb)
    refine alike_bind (alike_located hinner) fun b now now' hok hnow => ih b hnow ?_
    exact fun t _ _ hb => h t _ _ (.inr ⟨b, now, hok, hb⟩)
  | deeper _ _ ihinner ih =>
    have hinner := ihinner hst.deeper fun t _ _ hb => h t _ _ (.inl hb)
    refine alike_bind (alike_deeper hinner) fun b now now' hok hnow => ih b hnow ?_
    exact fun t _ _ hb => h t _ _ (.inr ⟨b, now, hok, hb⟩)

/-- A usual task that reaches nothing but usual tasks has the same outcome at both levels. -/
theorem run_alike {t : Task} (hst : Twin D st st') (ht : t.Usual set.registry)
    (h : ∀ f m, fuel = f + 1 → Reaches (set.withTrace D.first) (fun _ => True) f
      (t.script (set.withTrace D.first)) st m → m.task.Usual set.registry) :
    Alike D (t.run (set.withTrace D.first) fuel st) (t.run (set.withTrace D.second) fuel st') := by
  induction fuel generalizing t st st' with
  | zero =>
    rw [run_zero, run_zero]
    exact .error hst
  | succ fuel ih =>
    rw [run_succ, run_succ]
    refine play_alike (script_parallel ht) hst fun t' now now' hb hnow => ?_
    refine ih hnow (h fuel _ rfl (.begun hb)) ?_
    rintro f m rfl hm
    exact h _ m rfl (.inside trivial hb hm)

/-- So has a script that begins nothing but such tasks. -/
theorem script_alike {p p' : Script α} (hp : Parallel D p p') (hst : Twin D st st')
    (h : ∀ m, Reaches (set.withTrace D.first) (fun _ => True) fuel p st m →
      m.task.Usual set.registry) :
    Alike D (p.play (Task.run (set.withTrace D.first) fuel) st)
      (p'.play (Task.run (set.withTrace D.second) fuel) st') := by
  refine play_alike hp hst fun t now now' hb hnow => ?_
  refine run_alike hnow (h _ (.begun hb)) ?_
  rintro f m rfl hm
  exact h m (.inside trivial hb hm)

end Offside.Evaluator
