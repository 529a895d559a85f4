import Offside.Proofs.Evaluator.Reach
import Offside.Proofs.Evaluator.Signal

/-!
What statements complete with. Whatever state a sound statement is executed in, it completes in a
way that its context allows: what the functions do that it calls is of no account, since a call
takes up all that its body completes with.
-/

namespace Offside.Evaluator

open Script

variable {set : Settings} {whiles : Bool} {context : Parser.Context} {fuel s : Nat} {α β : Type}
  {P : α → Prop} {Q : β → Prop}

/-- Whatever the script answers satisfies the predicate. -/
def Answers (set : Settings) (fuel : Nat) (P : α → Prop) (p : Script α) : Prop :=
  ∀ ⦃st a st'⦄, p.play (Task.run set fuel) st = .ok a st' → P a

theorem answers_pure {a : α} (h : P a) : Answers set fuel P (pure a) := by
  rintro st _ _ ⟨⟩
  exact h

theorem answers_bind {p : Script β} {f : β → Script α} (hp : Answers set fuel Q p)
    (hf : ∀ b, Q b → Answers set fuel P (f b)) : Answers set fuel P (p >>= f) := by
  intro st a st' h
  rw [play_bind] at h
  obtain ⟨b, st₁, hb, ha⟩ := bind_ok.mp h
  exact hf b (hp hb) ha

/-- What is done first does not matter. -/
theorem answers_after {p : Script β} {f : β → Script α} (hf : ∀ b, Answers set fuel P (f b)) :
    Answers set fuel P (p >>= f) :=
  answers_bind (Q := fun _ => True) (fun _ _ _ _ => trivial) fun b _ => hf b

theorem answers_normal {p : Script β} :
    Answers set fuel (Completion.Allowed context) (p >>= fun _ => pure .normal) :=
  answers_after fun _ => answers_pure trivial

theorem answers_inNode {p : Place} {inner : Script α} (h : Answers set fuel P inner) :
    Answers set fuel P (inNode p inner) := by
  intro st a st' hrun
  rw [play_inNode] at hrun
  unfold Run.located at hrun
  split at hrun
  · cases hrun
  · exact h hrun

/-- Work with this fuel completes as it may. -/
def Complete (set : Settings) (whiles : Bool) (fuel : Nat) : Prop :=
  ∀ ⦃w : Work⦄ ⦃context⦄, (Task.work w).Fit whiles context →
    Answers set fuel (Completion.Allowed context) (perform w)

theorem block_answers (ih : Complete set whiles fuel) {ns : List Node}
    (h : Runnable whiles context ns) :
    Answers set fuel (Completion.Allowed context) (block s ns) := by
  induction ns with
  | nil => exact answers_pure trivial
  | cons n ns ihns =>
    obtain ⟨hn, hns⟩ := List.forall_mem_cons.mp h
    refine answers_bind (ih (w := .execute n s) hn) fun completion hc => ?_
    cases completion with
    | normal => exact ihns hns
    | _ => exact answers_pure hc

/-- A loop takes up the `break` and `continue` of its body. -/
theorem visits_answers (ih : Complete set whiles fuel) {node : Node} {name : Json}
    {body : List Node} (h : Runnable whiles { context with inLoop := true } body)
    (items : List Value) :
    Answers set fuel (Completion.Allowed context) (visits set node name body s items) := by
  induction items with
  | nil => exact answers_pure trivial
  | cons item rest ihrest =>
    apply answers_after
    intro _
    refine answers_bind (block_answers ih h) fun completion hc => ?_
    cases completion with
    | normal | continued => exact ihrest
    | broken => exact answers_pure trivial
    | returned v => exact answers_pure hc

theorem assignScript_answers (target : Node) (v : Value) :
    Answers set fuel (Completion.Allowed context) (assignScript set target v s) := by
  cases target with
  | index => exact answers_after fun _ => answers_after fun _ => answers_normal
  | _ => exact answers_normal

theorem augmentScript_answers (target : Node) (op : Json) (node : Node) :
    Answers set fuel (Completion.Allowed context) (augmentScript set target op node s) := by
  cases target with
  | identifier => exact answers_after fun _ => answers_after fun _ => answers_after fun _ => answers_normal
  | _ =>
    exact answers_after fun _ => answers_after fun _ => answers_after fun _ => answers_after fun _ =>
      answers_after fun _ => answers_normal

theorem statementScript_answers (ih : Complete set whiles fuel) {node : Node}
    (h : node.Executable whiles context) :
    Answers set fuel (Completion.Allowed context) (statementScript set node s) := by
  cases h with
  | exprStmt => exact answers_normal
  | assign => exact answers_after fun v => assignScript_answers _ v
  | augAssign => exact augmentScript_answers _ _ _
  | ifStmt _ hcs hbs he => exact ih (w := .branches _ _ _ _) ⟨hcs, hbs, he⟩
  | whileStmt hw hc hb => exact ih (w := .rounds _ _ _ _ _) ⟨hw, hc, hb⟩
  | forStmt _ hb => exact answers_after fun _ => answers_after fun items => visits_answers ih hb items
  | functionDef => exact answers_after fun _ => answers_after fun _ => answers_normal
  | returnNone hf => exact answers_pure hf
  | @returnStmt _ _ v hf hv =>
    have hreturn : returnScript v s = do return .returned (← value v s) := by
      cases hv <;> rfl
    rw [statementScript, hreturn]
    exact answers_after fun _ => answers_pure hf
  | breakStmt hl => exact answers_pure hl
  | continueStmt hl => exact answers_pure hl
  | passStmt => exact answers_pure trivial
  | delete => exact answers_after fun _ => answers_after fun _ => answers_normal

theorem branchScript_answers (ih : Complete set whiles fuel) {node : Node}
    {bs : List (Node × List Node)} {elseBody : Option (List Node)}
    (h : (Task.work (.branches node bs elseBody s)).Fit whiles context) :
    Answers set fuel (Completion.Allowed context) (branchScript set node bs elseBody s) := by
  obtain ⟨hcs, hbs, he⟩ := h
  rcases bs with _ | ⟨⟨condition, body⟩, rest⟩
  · cases elseBody with
    | none => exact answers_pure trivial
    | some body => exact answers_after fun _ => block_answers ih (he body rfl)
  · obtain ⟨-, hcs⟩ := List.forall_mem_cons.mp hcs
    obtain ⟨hb, hbs⟩ := List.forall_mem_cons.mp hbs
    apply answers_after
    intro taken
    apply answers_after
    intro _
    split
    · exact block_answers ih hb
    · exact ih (w := .branches _ _ _ _) ⟨hcs, hbs, he⟩

theorem roundScript_answers (ih : Complete set whiles fuel) {node condition : Node}
    {body : List Node} {round : Nat}
    (h : (Task.work (.rounds node condition body round s)).Fit whiles context) :
    Answers set fuel (Completion.Allowed context) (roundScript set node condition body round s) := by
  apply answers_after
  intro holds
  cases holds with
  | false => exact answers_pure trivial
  | true =>
    apply answers_after
    intro _
    refine answers_bind (block_answers ih h.2.2) fun completion hc => ?_
    cases completion with
    | normal | continued => exact ih (w := .rounds _ _ _ _ _) h
    | broken => exact answers_pure trivial
    | returned v => exact answers_pure hc

theorem work_answers (ih : Complete set whiles fuel) {w : Work}
    (h : (Task.work w).Fit whiles context) :
    Answers set fuel (Completion.Allowed context) (w.script set) := by
  cases w with
  | execute node s =>
    apply answers_after
    intro p
    apply answers_inNode
    exact answers_after fun _ => statementScript_answers ih h
  | branches node bs elseBody s => exact branchScript_answers ih h
  | rounds node condition body round s => exact roundScript_answers ih h

theorem work_complete (fuel : Nat) : Complete set whiles fuel := by
  induction fuel with
  | zero =>
    intro w context _ st c st' hrun
    rw [play_perform, run_zero] at hrun
    cases hrun
  | succ fuel ih =>
    intro w context h st c st' hrun
    rw [play_perform, run_succ] at hrun
    exact work_answers ih h hrun

/-- Outside of loops and functions, every statement completes normally. -/
theorem block_normal {body : List Node} (h : Runnable whiles ⟨false, false⟩ body)
    {c : Completion} {st st' : State}
    (hrun : runBlock (execute set fuel · s) body st = .ok c st') : c = .normal := by
  have hplay : (block s body).play (Task.run set fuel) st = .ok c st' := by
    rw [play_block]
    exact hrun
  exact allowed_outside (block_answers (work_complete fuel) h hplay)

end Offside.Evaluator
