import Offside.Proofs.Evaluator.Invariant

/-!
Scripts of sound trees. A task is fit if its node is sound where it stands; the script of a fit task
has none but fit tasks, each smaller than itself or inside a call that goes deeper, and none but
actions that keep the invariant. Everything that holds of all runs of a program follows from this.
-/

namespace Offside

/-- The ways in which a statement may complete, as its context has it. -/
def Completion.Allowed (context : Parser.Context) : Completion → Prop
  | normal => True
  | returned _ => context.inFunction = true
  | broken | continued => context.inLoop = true

namespace Evaluator

open Run

/-- Statements that can all be executed. -/
def Runnable (whiles : Bool) (context : Parser.Context) (ns : List Node) : Prop :=
  ∀ n ∈ ns, n.Executable whiles context

/-- The node of a task is sound where it stands. -/
def Task.Fit (whiles : Bool) (context : Parser.Context) : Task → Prop
  | evaluate node _ => node.Evaluable
  | part _ _ node _ => ∀ n ∈ node, n.Evaluable
  | test _ condition _ => condition.Evaluable
  | call .. => True
  | work (.execute node _) => node.Executable whiles context
  | work (.branches _ bs elseBody _) =>
    (∀ b ∈ bs, b.1.Evaluable) ∧ (∀ b ∈ bs, Runnable whiles context b.2) ∧
      ∀ b ∈ elseBody, Runnable whiles context b
  | work (.rounds _ condition body _ _) =>
    whiles = true ∧ condition.Evaluable ∧ Runnable whiles { context with inLoop := true } body

/-- What the result of a task satisfies. -/
def Task.Post (context : Parser.Context) : (t : Task) → t.Result → Prop
  | evaluate .. | part .. | call .. | test .. => Always
  | work _ => Completion.Allowed context

/-- The size of what a task has before it, calls apart. -/
noncomputable def Task.weight : Task → Nat
  | evaluate node _ => sizeOf node
  | part _ _ node _ => sizeOf node
  | test _ condition _ => sizeOf condition + 1
  | call .. => 0
  | work (.execute node _) => sizeOf node
  | work (.branches _ bs elseBody _) => sizeOf bs + sizeOf elseBody
  | work (.rounds ..) => 0

/-- A script at depth `d` with none but fit tasks, lighter than `m` unless there may be `while`, and
none but quiet actions; what it gives satisfies the predicate. -/
inductive Tidy (set : Settings) (whiles : Bool) :
    Nat → Nat → {α : Type} → (α → Prop) → Script α → Prop where
  | done {d m : Nat} {α : Type} {P : α → Prop} {a : α} : P a → Tidy set whiles d m P (.done a)
  | act {d m : Nat} {α β : Type} {P : α → Prop} {Q : β → Prop} {x : Run β} {next : β → Script α} :
      Quiet whiles d Q x → (∀ b, Q b → Tidy set whiles d m P (next b)) →
      Tidy set whiles d m P (.act x next)
  | task {d m : Nat} {α : Type} {P : α → Prop} {context : Parser.Context} {t : Task}
      {next : t.Result → Script α} : t.Fit whiles context → (whiles = false → t.weight < m) →
      (∀ b, t.Post context b → Tidy set whiles d m P (next b)) →
      Tidy set whiles d m P (.task t next)
  | located {d m : Nat} {α β : Type} {P : α → Prop} {Q : β → Prop} {p : Place}
      {inner : Script β} {next : β → Script α} : Tidy set whiles d m Q inner →
      (∀ b, Q b → Tidy set whiles d m P (next b)) → Tidy set whiles d m P (.located p inner next)
  | deeper {d m k : Nat} {α β : Type} {P : α → Prop} {Q : β → Prop} {inner : Script β}
      {next : β → Script α} : d < set.maxDepth → Tidy set whiles (d + 1) k Q inner →
      (∀ b, Q b → Tidy set whiles d m P (next b)) → Tidy set whiles d m P (.deeper inner next)

section

variable {set : Settings} {whiles : Bool} {context : Parser.Context} {d m : Nat}
  {α β γ : Type} {P : α → Prop} {Q : β → Prop} {s : Nat}

theorem tidy_pure {a : α} (h : P a) : Tidy set whiles d m P (pure a) := .done h

theorem tidy_bind {p : Script β} {f : β → Script α} (hp : Tidy set whiles d m Q p)
    (hf : ∀ b, Q b → Tidy set whiles d m P (f b)) : Tidy set whiles d m P (p >>= f) := by
  change Tidy set whiles d m P (p.andThen f)
  induction hp with
  | done h => exact hf _ h
  | act hx _ ih => exact .act hx fun b hb => ih b hb hf
  | task ht hm _ ih => exact .task ht hm fun b hb => ih b hb hf
  | located hi _ _ ih => exact .located hi fun b hb => ih b hb hf
  | deeper hd hi _ _ ih => exact .deeper hd hi fun b hb => ih b hb hf

theorem tidy_doing {x : Run α} (h : Quiet whiles d P x) :
    Tidy set whiles d m P (Script.doing x) :=
  .act h fun _ => .done

theorem tidy_task (context : Parser.Context) {t : Task} (h : t.Fit whiles context)
    (hm : whiles = false → t.weight < m) :
    Tidy set whiles d m (t.Post context) (.task t .done) :=
  .task h hm fun _ => .done

theorem tidy_value {node : Node} (h : node.Evaluable) (hm : sizeOf node < m) :
    Tidy set whiles d m Always (Script.value node s) :=
  tidy_task ⟨false, false⟩ (t := .evaluate node s) h fun _ => hm

theorem tidy_part {owner node : Node} {name : String} (h : node.Evaluable)
    (hm : sizeOf node + 1 < m) :
    Tidy set whiles d m Always (Script.part owner name (some node) s) := by
  refine tidy_task ⟨false, false⟩ (t := .part owner name (some node) s) ?_ fun _ => ?_
  · rintro _ ⟨⟩
    exact h
  · simp [Task.weight]
    omega

theorem tidy_test {kind : Test} {condition : Node} (h : condition.Evaluable)
    (hm : whiles = false → sizeOf condition + 1 < m) :
    Tidy set whiles d m Always (Script.test kind condition s) :=
  tidy_task ⟨false, false⟩ (t := .test kind condition s) h hm

theorem tidy_call {f : Value} {args : List Value} (hm : 0 < m) :
    Tidy set whiles d m Always (Script.call f args) :=
  tidy_task ⟨false, false⟩ (t := .call f args) trivial fun _ => hm

theorem tidy_perform {w : Work} (h : (Task.work w).Fit whiles context)
    (hm : whiles = false → (Task.work w).weight < m) :
    Tidy set whiles d m (Completion.Allowed context) (Script.perform w) :=
  tidy_task context h hm

theorem tidy_inNode {p : Place} {inner : Script α} (h : Tidy set whiles d m P inner) :
    Tidy set whiles d m P (Script.inNode p inner) :=
  .located h fun _ => .done

theorem tidy_inCall {k : Nat} {inner : Script α} (hd : d < set.maxDepth)
    (h : Tidy set whiles (d + 1) k P inner) : Tidy set whiles d m P (Script.inCall inner) :=
  .deeper hd h fun _ => .done

theorem tidy_each {f : β → Script γ} {bs : List β} (h : ∀ b ∈ bs, Tidy set whiles d m Always (f b)) :
    Tidy set whiles d m Always (Script.each f bs) := by
  induction bs with
  | nil => exact tidy_pure trivial
  | cons b bs ih =>
    refine tidy_bind (h b List.mem_cons_self) fun c _ => ?_
    refine tidy_bind (ih fun b' hb' => h b' (List.mem_cons_of_mem b hb')) fun cs _ => ?_
    exact tidy_pure trivial

/-! ### Expressions -/

theorem binaryScript_tidy {op : String} {left right : Node} (hop : op ∈ binaryOperators)
    (hl : left.Evaluable) (hr : right.Evaluable) (hlm : sizeOf left < m) (hrm : sizeOf right < m) :
    Tidy set whiles d m Always (binaryScript op left right s) := by
  unfold binaryScript
  split
  · refine tidy_bind (tidy_value hl hlm) fun v _ => ?_
    refine tidy_bind (tidy_doing (booleanAt_quiet _ _ _)) fun a _ => ?_
    split
    · exact tidy_pure trivial
    · refine tidy_bind (tidy_value hr hrm) fun v _ => ?_
      exact tidy_bind (tidy_doing (booleanAt_quiet _ _ _)) fun b _ => tidy_pure trivial
  · next hlogic =>
    refine tidy_bind (tidy_value hl hlm) fun a _ => tidy_bind (tidy_value hr hrm) fun b _ => ?_
    obtain ⟨hand, hor⟩ : op ≠ "and" ∧ op ≠ "or" := by
      constructor <;> rintro rfl <;> exact hlogic rfl
    exact tidy_doing (applyBinary_quiet hop hand hor a b)

theorem entryScript_tidy {e : Node × Node} (hk : e.1.Evaluable) (hv : e.2.Evaluable)
    (hm : sizeOf e ≤ m) : Tidy set whiles d m Always (entryScript s e) := by
  obtain ⟨k, v⟩ := e
  have hsize : sizeOf (k, v) = 1 + sizeOf k + sizeOf v := rfl
  refine tidy_bind (tidy_value hk (by dsimp only; omega)) fun k _ => ?_
  refine tidy_bind (tidy_doing (checkKey_quiet _ _)) fun _ _ => ?_
  exact tidy_bind (tidy_value hv (by dsimp only; omega)) fun v _ => tidy_pure trivial

theorem valueScript_tidy {node : Node} (h : node.Evaluable) :
    Tidy set whiles d (sizeOf node) Always (valueScript set node s) := by
  cases h with
  | literal => exact tidy_pure trivial
  | identifier => exact tidy_doing (lookUp_quiet _ _)
  | unaryOp hop ha =>
    refine tidy_bind (tidy_value ha (by simp)) fun v _ => ?_
    exact tidy_doing (applyUnary_quiet hop v)
  | binaryOp hop ha hb => exact binaryScript_tidy hop ha hb (by simp; omega) (by simp)
  | call hf has =>
    refine tidy_bind (tidy_value hf (by simp; omega)) fun f _ => ?_
    refine tidy_bind (tidy_each fun a ha => tidy_value (has a ha) ?_) fun args _ => ?_
    · have := List.sizeOf_lt_of_mem ha
      rw [Node.call.sizeOf_spec]
      omega
    · exact tidy_call (by simp)
  | index ht hi =>
    refine tidy_bind (tidy_value ht (by simp; omega)) fun t _ => ?_
    refine tidy_bind (tidy_value hi (by simp)) fun i _ => ?_
    exact tidy_doing (readItem_quiet t i)
  | member ht =>
    refine tidy_bind (tidy_value ht (by simp; omega)) fun t _ => ?_
    exact tidy_doing (bindMethod_quiet set t _)
  | listLiteral hes =>
    refine tidy_bind (tidy_each fun e he => tidy_value (hes e he) ?_) fun vs _ => ?_
    · have := List.sizeOf_lt_of_mem he
      rw [Node.listLiteral.sizeOf_spec]
      omega
    · exact tidy_doing (newList_quiet vs)
  | mapLiteral hks hvs =>
    refine tidy_bind (tidy_each fun e he => entryScript_tidy (hks e he) (hvs e he) ?_) fun es _ => ?_
    · have := List.sizeOf_lt_of_mem he
      rw [Node.mapLiteral.sizeOf_spec]
      omega
    · exact tidy_doing (newMapping_quiet _)
  | lambda _ hb =>
    refine tidy_bind (tidy_doing (place_quiet _)) fun p _ => ?_
    refine tidy_doing (newFunction_quiet _ ?_)
    exact List.forall_mem_singleton.mpr (.returnStmt rfl hb)

/-! ### Statements -/

theorem block_tidy {ns : List Node} (h : Runnable whiles context ns)
    (hm : whiles = false → sizeOf ns ≤ m) :
    Tidy set whiles d m (Completion.Allowed context) (Script.block s ns) := by
  induction ns with
  | nil => exact tidy_pure trivial
  | cons n ns ih =>
    obtain ⟨hn, hns⟩ := List.forall_mem_cons.mp h
    refine tidy_bind (tidy_perform (w := .execute n s) hn ?_) fun completion hc => ?_
    · intro hw
      have := hm hw
      simp [Task.weight] at this ⊢
      omega
    · cases completion with
      | normal =>
        refine ih hns fun hw => ?_
        have := hm hw
        simp at this
        omega
      | _ => exact tidy_pure hc

/-- A loop takes up the `break` and `continue` of its body. -/
theorem visits_tidy {node : Node} {name : Json} {body : List Node}
    (h : Runnable whiles { context with inLoop := true } body)
    (hm : whiles = false → sizeOf body ≤ m) (items : List Value) :
    Tidy set whiles d m (Completion.Allowed context) (visits set node name body s items) := by
  induction items with
  | nil => exact tidy_pure trivial
  | cons item rest ih =>
    refine tidy_bind (tidy_doing (visit_quiet _ _ _ _ _)) fun _ _ => ?_
    refine tidy_bind (block_tidy h hm) fun completion hc => ?_
    cases completion with
    | normal => exact ih
    | continued => exact ih
    | broken => exact tidy_pure trivial
    | returned v => exact tidy_pure hc

theorem assignScript_tidy {target : Node} (ht : target.Evaluable)
    (ha : Parser.isAssignable target = true) (hm : sizeOf target ≤ m) (v : Value) :
    Tidy set whiles d m (Completion.Allowed context) (assignScript set target v s) := by
  cases ht with
  | identifier =>
    exact tidy_bind (tidy_doing (assignName_quiet _ _ _ _)) fun _ _ => tidy_pure trivial
  | index hc hk =>
    refine tidy_bind (tidy_value hc (by simp at hm; omega)) fun c _ => ?_
    refine tidy_bind (tidy_value hk (by simp at hm; omega)) fun k _ => ?_
    exact tidy_bind (tidy_doing (writeItem_quiet _ _ _)) fun _ _ => tidy_pure trivial
  | _ => cases ha

theorem augmented_binary {op : String} (h : op ∈ Node.augmentedOperators) :
    op ∈ binaryOperators ∧ op ≠ "and" ∧ op ≠ "or" := by
  simp only [Node.augmentedOperators, List.mem_cons, List.not_mem_nil, or_false] at h
  rcases h with rfl | rfl | rfl | rfl | rfl <;> decide

theorem augmentScript_tidy {target node : Node} {op : String} (ht : target.Evaluable)
    (ha : Parser.isAssignable target = true) (hop : op ∈ Node.augmentedOperators)
    (hn : node.Evaluable) (htm : sizeOf target < m) (hnm : sizeOf node < m) :
    Tidy set whiles d m (Completion.Allowed context) (augmentScript set target op node s) := by
  obtain ⟨hop, hand, hor⟩ := augmented_binary hop
  cases ht with
  | identifier =>
    refine tidy_bind (tidy_value .identifier htm) fun current _ => ?_
    refine tidy_bind (tidy_value hn hnm) fun v _ => ?_
    refine tidy_bind (tidy_doing (applyBinary_quiet hop hand hor _ _)) fun v _ => ?_
    exact tidy_bind (tidy_doing (assignName_quiet _ _ _ _)) fun _ _ => tidy_pure trivial
  | index hc hk =>
    refine tidy_bind (tidy_part hc (by simp at htm; omega)) fun c _ => ?_
    refine tidy_bind (tidy_part hk (by simp at htm; omega)) fun k _ => ?_
    refine tidy_bind (tidy_doing (readItem_quiet _ _)) fun current _ => ?_
    refine tidy_bind (tidy_value hn hnm) fun v _ => ?_
    refine tidy_bind (tidy_doing (applyBinary_quiet hop hand hor _ _)) fun v _ => ?_
    exact tidy_bind (tidy_doing (writeItem_quiet _ _ _)) fun _ _ => tidy_pure trivial
  | _ => cases ha

theorem statementScript_tidy {node : Node} (h : node.Executable whiles context) :
    Tidy set whiles d (sizeOf node) (Completion.Allowed context) (statementScript set node s) := by
  cases h with
  | exprStmt he => exact tidy_bind (tidy_value he (by simp)) fun _ _ => tidy_pure trivial
  | assign ht ha hv =>
    refine tidy_bind (tidy_value hv (by simp)) fun v _ => ?_
    exact assignScript_tidy ht ha (by simp; omega) v
  | augAssign ht ha hop hv => exact augmentScript_tidy ht ha hop hv (by simp; omega) (by simp)
  | ifStmt _ hcs hbs he =>
    refine tidy_perform (w := .branches _ _ _ _) ⟨hcs, hbs, he⟩ fun _ => ?_
    simp [Task.weight]
  | whileStmt hw hc hb =>
    exact tidy_perform (w := .rounds _ _ _ _ _) ⟨hw, hc, hb⟩ fun h => by simp [h] at hw
  | forStmt hi hb =>
    refine tidy_bind (tidy_value hi (by simp; omega)) fun v _ => ?_
    refine tidy_bind (tidy_doing (itemsOf_quiet v)) fun items _ => ?_
    exact visits_tidy hb (fun _ => by simp) items
  | functionDef _ hb =>
    refine tidy_bind (tidy_doing (newFunction_quiet _ hb)) fun f _ => ?_
    refine tidy_bind (tidy_doing (define_quiet _ _ _)) fun _ _ => ?_
    exact tidy_bind (tidy_doing (traceFunction_quiet _ _ _)) fun _ _ => tidy_pure trivial
  | returnNone hf => exact tidy_pure hf
  | returnStmt hf hv =>
    rename_i v
    have hreturn : returnScript v s = do return .returned (← Script.value v s) := by
      cases hv <;> rfl
    rw [statementScript, hreturn]
    exact tidy_bind (tidy_value hv (by simp)) fun _ _ => tidy_pure hf
  | breakStmt hl => exact tidy_pure hl
  | continueStmt hl => exact tidy_pure hl
  | passStmt => exact tidy_pure trivial
  | delete ht hi =>
    refine tidy_bind (tidy_part ht (by simp; omega)) fun c _ => ?_
    refine tidy_bind (tidy_part hi (by simp; omega)) fun k _ => ?_
    exact tidy_bind (tidy_doing (deleteItem_quiet _ _)) fun _ _ => tidy_pure trivial

theorem branchScript_tidy {node : Node} {bs : List (Node × List Node)}
    {elseBody : Option (List Node)} (hcs : ∀ b ∈ bs, b.1.Evaluable)
    (hbs : ∀ b ∈ bs, Runnable whiles context b.2) (he : ∀ b ∈ elseBody, Runnable whiles context b) :
    Tidy set whiles d (sizeOf bs + sizeOf elseBody) (Completion.Allowed context)
      (branchScript set node bs elseBody s) := by
  rcases bs with _ | ⟨⟨condition, body⟩, rest⟩
  · cases elseBody with
    | none => exact tidy_pure trivial
    | some body =>
      refine tidy_bind (tidy_doing (traceAt_quiet _ _ _)) fun _ _ => ?_
      exact block_tidy (he body rfl) fun _ => by simp; omega
  · obtain ⟨hc, hcs⟩ := List.forall_mem_cons.mp hcs
    obtain ⟨hb, hbs⟩ := List.forall_mem_cons.mp hbs
    refine tidy_bind (tidy_test hc fun _ => ?_) fun taken _ => ?_
    · simp
      omega
    · refine tidy_bind (tidy_doing (traceAt_quiet _ _ _)) fun _ _ => ?_
      split
      · exact block_tidy hb fun _ => by simp; omega
      · refine tidy_perform (w := .branches _ _ _ _) ⟨hcs, hbs, he⟩ fun _ => ?_
        simp [Task.weight]

/-- With `while` there is no bound on the rounds, so the weight of a loop is left open. -/
theorem roundScript_tidy {node condition : Node} {body : List Node} {round : Nat}
    (hw : whiles = true) (hc : condition.Evaluable)
    (hb : Runnable whiles { context with inLoop := true } body) :
    Tidy set whiles d m (Completion.Allowed context)
      (roundScript set node condition body round s) := by
  have hfree {p : Prop} (h : whiles = false) : p := by simp [h] at hw
  refine tidy_bind (tidy_test hc hfree) fun holds _ => ?_
  cases holds with
  | false => exact tidy_pure trivial
  | true =>
    refine tidy_bind (tidy_doing (traceAt_quiet _ _ _)) fun _ _ => ?_
    refine tidy_bind (block_tidy hb hfree) fun completion hcompletion => ?_
    have hagain : Tidy set whiles d m (Completion.Allowed context)
        (Script.perform (.rounds node condition body (round + 1) s)) :=
      tidy_perform ⟨hw, hc, hb⟩ hfree
    cases completion with
    | normal => exact hagain
    | continued => exact hagain
    | broken => exact tidy_pure trivial
    | returned v => exact tidy_pure hcompletion

theorem callScript_tidy (f : Value) (args : List Value) :
    Tidy set whiles d m Always (callScript set f args) := by
  cases f with
  | function id name =>
    refine tidy_bind (tidy_doing (closureOf_quiet id)) fun closure hclosure => ?_
    refine tidy_bind (tidy_doing (checkArity_quiet _ _ _)) fun _ _ => ?_
    refine tidy_bind (tidy_doing (checkDepth_quiet _ _)) fun _ hd => ?_
    refine tidy_bind (tidy_doing (enter_quiet _ _ _ _)) fun inner _ => ?_
    exact tidy_bind (tidy_inCall hd (block_tidy hclosure fun _ => Nat.le_refl _))
      fun _ _ => tidy_pure trivial
  | native name => exact tidy_doing (callBuiltin_quiet _ _ _)
  | bound name receiver => exact tidy_doing (callBuiltin_quiet _ _ _)
  | _ => exact tidy_doing (quiet_refuse id)

/-- The script of a fit task is tidy. -/
theorem script_tidy {t : Task} (h : t.Fit whiles context) :
    Tidy set whiles d t.weight (t.Post context) (t.script set) := by
  cases t with
  | evaluate node s =>
    refine tidy_bind (tidy_doing (place_quiet _)) fun p _ => ?_
    exact tidy_inNode (valueScript_tidy h)
  | part owner name node s =>
    cases node with
    | none => exact tidy_doing (quiet_fault _)
    | some node => exact tidy_value (h node rfl) (by simp [Task.weight])
  | test kind condition s =>
    refine tidy_bind (tidy_value h (by simp [Task.weight])) fun v _ => ?_
    exact tidy_doing (booleanAt_quiet _ _ _)
  | call f args => exact callScript_tidy f args
  | work w =>
    cases w with
    | execute node s =>
      refine tidy_bind (tidy_doing (place_quiet _)) fun p _ => ?_
      refine tidy_inNode ?_
      exact tidy_bind (tidy_doing (traceAt_quiet _ _ _)) fun _ _ => statementScript_tidy h
    | branches node bs elseBody s => exact branchScript_tidy h.1 h.2.1 h.2.2
    | rounds node condition body round s => exact roundScript_tidy h.1 h.2.1 h.2.2

/-! ### What every run keeps -/

theorem play_meets {R : (t : Task) → Run t.Result}
    (hR : ∀ (t : Task) context d st, t.Fit whiles context → At whiles d st →
      Meets whiles d (t.Post context) (R t st))
    {p : Script α} (hp : Tidy set whiles d m P p) {st : State} (hst : At whiles d st) :
    Meets whiles d P (p.play R st) := by
  induction hp generalizing st with
  | done h => exact ⟨h, hst⟩
  | act hx _ ih => exact meets_bind (hx st hst).1 fun b st hb hst => ih b hb hst
  | task ht _ _ ih => exact meets_bind (hR _ _ _ st ht hst) fun b st hb hst => ih b hb hst
  | located _ _ ih ihnext =>
    exact meets_bind (meets_located _ (ih hst)) fun b st hb hst => ihnext b hb hst
  | deeper _ _ _ ih ihnext =>
    exact meets_bind (meets_deeper (fun st => ih) hst) fun b st hb hst => ihnext b hb hst

theorem run_meets (fuel : Nat) {t : Task} (ht : t.Fit whiles context) {st : State}
    (hst : At whiles d st) : Meets whiles d (t.Post context) (t.run set fuel st) := by
  induction fuel generalizing t context d st with
  | zero =>
    rw [run_zero]
    exact ⟨trivial, hst⟩
  | succ fuel ih =>
    rw [run_succ]
    exact play_meets (fun t context d st ht hst => ih ht hst) (script_tidy ht) hst

theorem script_meets (fuel : Nat) {p : Script α} (hp : Tidy set whiles d m P p) {st : State}
    (hst : At whiles d st) : Meets whiles d P (p.play (Task.run set fuel) st) :=
  play_meets (fun _ _ _ _ ht hst => run_meets fuel ht hst) hp hst

end

end Evaluator

end Offside
