import Offside.Proofs.Evaluator.Retaining

/-!
Scripts of whatever tree among values of the language. A script does nothing but what leaves such
values behind, and begins tasks of its own tree or of a function, with such values as arguments. So
in every state that a run comes by, a task is begun with values of the language.
-/

namespace Offside.Evaluator

open Run

/-- A task on regular nodes, with values of the language. -/
def Task.InLanguage : Task → Prop
  | evaluate node _ | test _ node _ | work (.execute node _) => node.All Node.IsRegular
  | part _ _ node _ => ∀ n ∈ node, n.All Node.IsRegular
  | call f args => f.Proper ∧ ∀ v ∈ args, v.Proper
  | work (.branches _ bs elseBody _) =>
    (∀ b ∈ bs, b.1.All Node.IsRegular ∧ ∀ n ∈ b.2, n.All Node.IsRegular) ∧
      ∀ b ∈ elseBody, ∀ n ∈ b, n.All Node.IsRegular
  | work (.rounds _ condition body _ _) =>
    condition.All Node.IsRegular ∧ ∀ n ∈ body, n.All Node.IsRegular

/-- A script of such tasks, with actions in between that leave values of the language, and a result
that satisfies `P`. -/
inductive Regular (set : Settings) : {α : Type} → (α → Prop) → Script α → Prop where
  | done {α : Type} {P : α → Prop} {a : α} : P a → Regular set P (.done a)
  | act {α β : Type} {P : α → Prop} {Q : β → Prop} {x : Run β} {next : β → Script α} :
      Retains Q x → (∀ b, Q b → Regular set P (next b)) → Regular set P (.act x next)
  | task {α : Type} {P : α → Prop} {t : Task} {next : t.Result → Script α} : t.InLanguage →
      (∀ b, t.Gives b → Regular set P (next b)) → Regular set P (.task t next)
  | located {α β : Type} {P : α → Prop} {Q : β → Prop} {p : Place} {inner : Script β}
      {next : β → Script α} : Regular set Q inner →
      (∀ b, Q b → Regular set P (next b)) → Regular set P (.located p inner next)
  | deeper {α β : Type} {P : α → Prop} {Q : β → Prop} {inner : Script β} {next : β → Script α} :
      Regular set Q inner → (∀ b, Q b → Regular set P (next b)) →
      Regular set P (.deeper inner next)

section

variable {set : Settings} {α β γ : Type} {P : α → Prop} {Q : β → Prop} {S : γ → Prop} {s : Nat}

theorem regular_pure {a : α} (h : P a) : Regular set P (pure a : Script α) := .done h

theorem regular_bind {p : Script β} {f : β → Script α} (hp : Regular set Q p)
    (hf : ∀ b, Q b → Regular set P (f b)) : Regular set P (p >>= f) := by
  change Regular set P (p.andThen f)
  induction hp with
  | done h => exact hf _ h
  | act hx _ ih => exact .act hx fun b hb => ih b hb hf
  | task ht _ ih => exact .task ht fun b hb => ih b hb hf
  | located hi _ _ ih => exact .located hi fun b hb => ih b hb hf
  | deeper hi _ _ ih => exact .deeper hi fun b hb => ih b hb hf

theorem regular_doing {x : Run α} (h : Retains P x) : Regular set P (Script.doing x) :=
  .act h fun _ => .done

theorem regular_task {t : Task} (h : t.InLanguage) : Regular set t.Gives (.task t .done) :=
  .task h fun _ => .done

theorem regular_value {node : Node} (h : node.All Node.IsRegular) :
    Regular set Value.Proper (Script.value node s) :=
  regular_task (t := .evaluate node s) h

theorem regular_part {owner : Node} {name : String} {node : Option Node}
    (h : ∀ n ∈ node, n.All Node.IsRegular) :
    Regular set Value.Proper (Script.part owner name node s) :=
  regular_task (t := .part owner name node s) h

theorem regular_test {kind : Test} {condition : Node} (h : condition.All Node.IsRegular) :
    Regular set Always (Script.test kind condition s) :=
  regular_task (t := .test kind condition s) h

theorem regular_perform {w : Work} (h : (Task.work w).InLanguage) :
    Regular set Completion.Proper (Script.perform w) :=
  regular_task h

theorem regular_each {f : β → Script γ} {bs : List β} (h : ∀ b ∈ bs, Regular set S (f b)) :
    Regular set (fun cs => ∀ c ∈ cs, S c) (Script.each f bs) := by
  induction bs with
  | nil => exact regular_pure (List.forall_mem_nil _)
  | cons b bs ih =>
    obtain ⟨hb, hbs⟩ := List.forall_mem_cons.mp h
    refine regular_bind hb fun c hc => regular_bind (ih hbs) fun cs hcs => regular_pure ?_
    exact List.forall_mem_cons.mpr ⟨hc, hcs⟩

/-! ### Expressions -/

theorem binaryScript_regular {op : Json} {left right : Node} (hl : left.All Node.IsRegular)
    (hr : right.All Node.IsRegular) :
    Regular set Value.Proper (binaryScript op left right s) := by
  unfold binaryScript
  split
  · refine regular_bind (regular_value hl) fun v _ => ?_
    refine regular_bind (regular_doing (booleanAt_retains _ _ v)) fun a _ => ?_
    split
    · exact regular_pure trivial
    · refine regular_bind (regular_value hr) fun v _ => ?_
      refine regular_bind (regular_doing (booleanAt_retains _ _ v)) fun b _ => ?_
      exact regular_pure trivial
  · refine regular_bind (regular_value hl) fun a _ => ?_
    refine regular_bind (regular_value hr) fun b _ => ?_
    exact regular_doing (applyBinary_retains op a b)

theorem entryScript_regular {e : Node × Node} (hk : e.1.All Node.IsRegular)
    (hv : e.2.All Node.IsRegular) :
    Regular set (fun e => e.1.Proper ∧ e.2.Proper) (entryScript s e) := by
  refine regular_bind (regular_value hk) fun k hk => ?_
  refine regular_bind (regular_doing (checkKey_retains _ k)) fun _ _ => ?_
  exact regular_bind (regular_value hv) fun v hv => regular_pure ⟨hk, hv⟩

theorem valueScript_regular {node : Node} (h : node.All Node.IsRegular) :
    Regular set Value.Proper (valueScript set node s) := by
  cases node with
  | literal => exact regular_pure h.here
  | identifier p name => exact regular_doing (lookUp_retains s name)
  | unaryOp p op a =>
    refine regular_bind (regular_value (h.part (by simp [Node.parts]))) fun v _ => ?_
    exact regular_doing (applyUnary_retains op v)
  | binaryOp p op a b =>
    exact binaryScript_regular (h.part (by simp [Node.parts])) (h.part (by simp [Node.parts]))
  | call p f as =>
    refine regular_bind (regular_value (h.part (by simp [Node.parts]))) fun f hf => ?_
    refine regular_bind (regular_each fun a ha => regular_value (h.part ?_)) fun args hargs => ?_
    · exact List.mem_cons_of_mem _ ha
    · exact regular_task (t := .call f args) ⟨hf, hargs⟩
  | index p t i =>
    refine regular_bind (regular_value (h.part (by simp [Node.parts]))) fun t _ => ?_
    refine regular_bind (regular_value (h.part (by simp [Node.parts]))) fun i _ => ?_
    exact regular_doing (readItem_retains t i)
  | member p t name =>
    refine regular_bind (regular_value (h.part (by simp [Node.parts]))) fun t _ => ?_
    exact regular_doing (bindMethod_retains t name)
  | listLiteral p es =>
    refine regular_bind (regular_each fun e he => regular_value (h.part he)) fun vs hvs => ?_
    exact regular_doing (newList_retains hvs)
  | mapLiteral p es =>
    have hpart {e : Node × Node} (he : e ∈ es) {n : Node} (hn : n ∈ [e.1, e.2]) :
        n.All Node.IsRegular :=
      h.part (List.mem_flatMap.mpr ⟨e, he, hn⟩)
    refine regular_bind (regular_each fun e he =>
      entryScript_regular (hpart he (.head _)) (hpart he (.tail _ (.head _)))) fun es hes => ?_
    exact regular_doing (newMapping_retains (Mapping.ofEntries_proper hes))
  | lambda p ps b =>
    have hb : b.All Node.IsRegular := h.part (by simp [Node.parts])
    refine regular_bind (regular_doing (place_retains b)) fun q _ => ?_
    refine regular_doing (newFunction_retains _ (List.forall_mem_singleton.mpr ?_))
    exact Node.all_of_parts trivial (List.forall_mem_singleton.mpr hb)
  | _ => exact regular_doing (retains_refuse _)

/-! ### Statements -/

theorem block_regular {ns : List Node} (h : ∀ n ∈ ns, n.All Node.IsRegular) :
    Regular set Completion.Proper (Script.block s ns) := by
  induction ns with
  | nil => exact regular_pure trivial
  | cons n ns ih =>
    obtain ⟨hn, hns⟩ := List.forall_mem_cons.mp h
    refine regular_bind (regular_perform (w := .execute n s) hn) fun completion hc => ?_
    cases completion with
    | normal => exact ih hns
    | _ => exact regular_pure hc

theorem visits_regular {node : Node} {name : Json} {body : List Node}
    (h : ∀ n ∈ body, n.All Node.IsRegular) {items : List Value} (hitems : ∀ v ∈ items, v.Proper) :
    Regular set Completion.Proper (visits set node name body s items) := by
  induction items with
  | nil => exact regular_pure trivial
  | cons item rest ih =>
    obtain ⟨hitem, hrest⟩ := List.forall_mem_cons.mp hitems
    refine regular_bind (regular_doing (visit_retains node name s hitem)) fun _ _ => ?_
    refine regular_bind (block_regular h) fun completion hc => ?_
    cases completion with
    | normal | continued => exact ih hrest
    | broken => exact regular_pure trivial
    | returned v => exact regular_pure hc

theorem assignScript_regular {target : Node} (h : target.All Node.IsRegular) {v : Value}
    (hv : v.Proper) : Regular set Completion.Proper (assignScript set target v s) := by
  have hdone (x : Run Unit) (hx : Retains Always x) :
      Regular set Completion.Proper (do Script.doing x; return .normal) :=
    regular_bind (regular_doing hx) fun _ _ => regular_pure trivial
  cases target with
  | identifier p name => exact hdone _ (assignName_retains s name hv)
  | index p c k =>
    refine regular_bind (regular_value (h.part (by simp [Node.parts]))) fun c _ => ?_
    refine regular_bind (regular_value (h.part (by simp [Node.parts]))) fun k _ => ?_
    exact hdone _ (writeItem_retains c k hv)
  | _ => exact hdone _ (retains_refuse _)

theorem parts_regular {target : Node} (h : target.All Node.IsRegular)
    {f : Value → Value → Script α} (hf : ∀ container key, Regular set P (f container key)) :
    Regular set P (do
      let container ← Script.part target "target" target.target? s
      let key ← Script.part target "index" target.indexOf? s
      f container key) := by
  refine regular_bind (regular_part fun n hn => h.part (Node.target_part hn)) fun container _ => ?_
  refine regular_bind (regular_part fun n hn => h.part (Node.index_part hn)) fun key _ => ?_
  exact hf container key

theorem augmentScript_regular {target node : Node} {op : Json} (ht : target.All Node.IsRegular)
    (hn : node.All Node.IsRegular) :
    Regular set Completion.Proper (augmentScript set target op node s) := by
  cases target with
  | identifier p name =>
    refine regular_bind (regular_value ht) fun current _ => ?_
    refine regular_bind (regular_value hn) fun v _ => ?_
    refine regular_bind (regular_doing (applyBinary_retains op current v)) fun v hv => ?_
    refine regular_bind (regular_doing (assignName_retains s name hv)) fun _ _ => ?_
    exact regular_pure trivial
  | _ =>
    refine parts_regular ht fun container key => ?_
    refine regular_bind (regular_doing (readItem_retains container key)) fun current _ => ?_
    refine regular_bind (regular_value hn) fun v _ => ?_
    refine regular_bind (regular_doing (applyBinary_retains op current v)) fun v hv => ?_
    refine regular_bind (regular_doing (writeItem_retains container key hv)) fun _ _ => ?_
    exact regular_pure trivial

theorem returnScript_regular {node : Node} (h : node.All Node.IsRegular) :
    Regular set Completion.Proper (returnScript node s) := by
  cases node with
  | hole => exact regular_pure trivial
  | _ => exact regular_bind (regular_value h) fun v hv => regular_pure hv

theorem statementScript_regular {node : Node} (h : node.All Node.IsRegular) :
    Regular set Completion.Proper (statementScript set node s) := by
  cases node with
  | exprStmt p e =>
    refine regular_bind (regular_value (h.part (by simp [Node.parts]))) fun _ _ => ?_
    exact regular_pure trivial
  | assign p t v =>
    refine regular_bind (regular_value (h.part (by simp [Node.parts]))) fun v hv => ?_
    exact assignScript_regular (h.part (by simp [Node.parts])) hv
  | augAssign p t op v =>
    exact augmentScript_regular (h.part (by simp [Node.parts])) (h.part (by simp [Node.parts]))
  | ifStmt p bs e =>
    have hbranch {b : Node × List Node} {n : Node} (hb : b ∈ bs) (hn : n ∈ b.1 :: b.2) :
        n.All Node.IsRegular :=
      h.part (List.mem_append_left _ (List.mem_flatMap.mpr ⟨b, hb, hn⟩))
    refine regular_perform (w := .branches _ _ _ _)
      ⟨fun b hb => ⟨hbranch hb (.head _), fun n hn => hbranch hb (.tail _ hn)⟩, ?_⟩
    rintro b rfl n hn
    exact h.part (List.mem_append_right _ hn)
  | whileStmt p c b =>
    exact regular_perform (w := .rounds _ _ _ _ _)
      ⟨h.part (.head _), fun n hn => h.part (.tail _ hn)⟩
  | forStmt p name i b =>
    refine regular_bind (regular_value (h.part (.head _))) fun v _ => ?_
    refine regular_bind (regular_doing (itemsOf_retains v)) fun items hitems => ?_
    exact visits_regular (fun n hn => h.part (.tail _ hn)) hitems
  | functionDef p name ps b =>
    refine regular_bind (regular_doing (newFunction_retains _ fun n hn => h.part hn)) fun f hf => ?_
    refine regular_bind (regular_doing (define_retains s name hf)) fun _ _ => ?_
    refine regular_bind (regular_doing (traceFunction_retains _ _)) fun _ _ => ?_
    exact regular_pure trivial
  | returnStmt p v => exact returnScript_regular (h.part (by simp [Node.parts]))
  | breakStmt | continueStmt | passStmt => exact regular_pure trivial
  | delete p t =>
    refine parts_regular (h.part (by simp [Node.parts])) fun container key => ?_
    refine regular_bind (regular_doing (deleteItem_retains container key)) fun _ _ => ?_
    exact regular_pure trivial
  | _ => exact regular_doing (retains_refuse _)

theorem branchScript_regular {node : Node} {bs : List (Node × List Node)}
    {elseBody : Option (List Node)} (h : (Task.work (.branches node bs elseBody s)).InLanguage) :
    Regular set Completion.Proper (branchScript set node bs elseBody s) := by
  obtain ⟨hbs, he⟩ := h
  have htrace (line : Heap → String) : Regular set Always (Script.doing (traceAt set 3 line)) :=
    regular_doing (traceAt_retains 3 line)
  rcases bs with _ | ⟨⟨condition, body⟩, rest⟩
  · cases elseBody with
    | none => exact regular_pure trivial
    | some body => exact regular_bind (htrace _) fun _ _ => block_regular (he body rfl)
  · obtain ⟨⟨hc, hbody⟩, hrest⟩ := List.forall_mem_cons.mp hbs
    refine regular_bind (regular_test hc) fun taken _ => regular_bind (htrace _) fun _ _ => ?_
    by_cases htaken : taken = true
    · rw [if_pos htaken]
      exact block_regular hbody
    · rw [if_neg htaken]
      exact regular_perform (w := .branches node rest elseBody s) ⟨hrest, he⟩

theorem roundScript_regular {node condition : Node} {body : List Node} {round : Nat}
    (h : (Task.work (.rounds node condition body round s)).InLanguage) :
    Regular set Completion.Proper (roundScript set node condition body round s) := by
  have hagain : Regular set Completion.Proper
      (Script.perform (.rounds node condition body (round + 1) s)) :=
    regular_perform h
  refine regular_bind (regular_test h.1) fun holds _ => ?_
  cases holds with
  | false => exact regular_pure trivial
  | true =>
    refine regular_bind (regular_doing (traceAt_retains _ _)) fun _ _ => ?_
    refine regular_bind (block_regular h.2) fun completion hc => ?_
    cases completion with
    | normal | continued => exact hagain
    | broken => exact regular_pure trivial
    | returned v => exact regular_pure hc

/-! ### Calls -/

/-- The builtin that a call enters, and the arguments that it gets. -/
def Task.Enters (t : Task) (name : String) (args : List Value) : Prop :=
  t = .call (.native name) args ∨
    ∃ receiver rest, t = .call (.bound name receiver) rest ∧ args = receiver :: rest

/-- A method gets its receiver first. -/
theorem enters_fitting {t : Task} (h : t.InLanguage) {name : String} {args : List Value}
    (he : t.Enters name args) : Library.Fitting name args := by
  rcases he with rfl | ⟨receiver, rest, rfl, rfl⟩
  · obtain ⟨hname, hargs⟩ := h
    exact ⟨hargs, fun hdot => absurd hdot hname⟩
  · obtain ⟨hserves, hrest⟩ := h
    have hreceiver : receiver.Proper := Value.proper_of_serves hserves
    exact ⟨List.forall_mem_cons.mpr ⟨hreceiver, hrest⟩, fun _ => ⟨receiver, rest, rfl, hserves⟩⟩

theorem callScript_regular (hlibrary : ∀ b ∈ set.registry.builtins, b ∈ Library.builtins)
    {f : Value} {args : List Value} (h : (Task.call f args).InLanguage) :
    Regular set Value.Proper (callScript set f args) := by
  cases f with
  | function id name =>
    refine regular_bind (regular_doing (closureOf_retains id)) fun closure hbody => ?_
    refine regular_bind (regular_doing (checkArity_retains _ _ _)) fun _ _ => ?_
    refine regular_bind (regular_doing (checkDepth_retains _ _)) fun _ _ => ?_
    refine regular_bind (regular_doing (enter_retains name closure h.2)) fun inner _ => ?_
    exact .deeper (block_regular hbody) fun _ hc => regular_pure hc.value
  | native name =>
    exact regular_doing (callBuiltin_retains hlibrary (enters_fitting h (.inl rfl)))
  | bound name receiver =>
    exact regular_doing (callBuiltin_retains hlibrary (enters_fitting h (.inr ⟨_, _, rfl, rfl⟩)))
  | _ => exact regular_doing (retains_refuse _)

/-- The script of a task on regular nodes is regular. -/
theorem script_regular (hlibrary : ∀ b ∈ set.registry.builtins, b ∈ Library.builtins) {t : Task}
    (h : t.InLanguage) : Regular set t.Gives (t.script set) := by
  cases t with
  | evaluate node s =>
    refine regular_bind (regular_doing (place_retains node)) fun p _ => ?_
    exact .located (valueScript_regular h) fun _ => .done
  | part owner name node s =>
    cases node with
    | none => exact regular_doing (retains_stop _)
    | some node => exact regular_value (h node rfl)
  | test kind condition s =>
    exact regular_bind (regular_value h) fun v _ => regular_doing (booleanAt_retains _ _ v)
  | call f args => exact callScript_regular hlibrary h
  | work w =>
    cases w with
    | execute node s =>
      refine regular_bind (regular_doing (place_retains node)) fun p _ => ?_
      refine .located ?_ fun _ => .done
      exact regular_bind (regular_doing (traceAt_retains _ _)) fun _ _ => statementScript_regular h
    | branches node bs elseBody s => exact branchScript_regular h
    | rounds node condition body round s => exact roundScript_regular h

/-! ### Runs -/

variable {fuel : Nat} {st now : State} {t : Task}

/-- What tasks leave behind a script leaves behind. -/
theorem play_retains {R : (t : Task) → Run t.Result}
    (hR : ∀ {t : Task}, t.InLanguage → Retains t.Gives (R t)) {p : Script α}
    (hp : Regular set P p) : Retains P (p.play R) := by
  induction hp with
  | done h => exact retains_pure h
  | act hx _ ih => exact retains_bind hx ih
  | task ht _ ih => exact retains_bind (hR ht) ih
  | located _ _ ihinner ih => exact retains_bind (retains_located _ ihinner) ih
  | deeper _ _ ihinner ih =>
    refine retains_bind ⟨fun st hst => ?_⟩ ih
    exact retained_deeper (ihinner.retained _ (State.InLanguage.atDepth hst _))

theorem run_retains (hlibrary : ∀ b ∈ set.registry.builtins, b ∈ Library.builtins) (fuel : Nat)
    (h : t.InLanguage) : Retains t.Gives (t.run set fuel) := by
  induction fuel generalizing t with
  | zero =>
    rw [run_zero]
    exact retains_stop _
  | succ fuel ih =>
    rw [run_succ]
    exact play_retains ih (script_regular hlibrary h)

theorem script_retains (hlibrary : ∀ b ∈ set.registry.builtins, b ∈ Library.builtins)
    (fuel : Nat) {p : Script α} (hp : Regular set P p) :
    Retains P (p.play (Task.run set fuel)) :=
  play_retains (run_retains hlibrary fuel) hp

/-- A regular script begins its tasks with values of the language. -/
theorem begins_inLanguage (hlibrary : ∀ b ∈ set.registry.builtins, b ∈ Library.builtins)
    {p : Script α} (hp : Regular set P p) (hst : st.InLanguage)
    (h : p.Begins set fuel t now st) : t.InLanguage ∧ now.InLanguage := by
  induction hp generalizing st with
  | done => cases h
  | act hx _ ih =>
    obtain ⟨b, st', hok, h⟩ := h
    obtain ⟨hb, hst'⟩ := retained_ok (hx.retained st hst) hok
    exact ih b hb hst' h
  | task ht _ ih =>
    rcases h with ⟨rfl, rfl⟩ | ⟨b, st', hok, h⟩
    · exact ⟨ht, hst⟩
    · obtain ⟨hb, hst'⟩ := retained_ok ((run_retains hlibrary fuel ht).retained st hst) hok
      exact ih b hb hst' h
  | located hi _ ihinner ih =>
    rcases h with h | ⟨b, st', hok, h⟩
    · exact ihinner hst h
    · have hinner := (script_retains hlibrary fuel hi).retained st hst
      obtain ⟨hb, hst'⟩ := retained_ok (retained_located _ hinner) hok
      exact ih b hb hst' h
  | deeper hi _ ihinner ih =>
    have hdeeper := State.InLanguage.atDepth hst (st.depth + 1)
    rcases h with h | ⟨b, st', hok, h⟩
    · exact ihinner hdeeper h
    · have hinner := (script_retains hlibrary fuel hi).retained _ hdeeper
      obtain ⟨hb, hst'⟩ := retained_ok (retained_deeper hinner) hok
      exact ih b hb hst' h

/-- So does everything that it reaches. -/
theorem reaches_inLanguage (hlibrary : ∀ b ∈ set.registry.builtins, b ∈ Library.builtins)
    {into : Task → Prop} {m : Moment} {p : Script α} (hp : Regular set P p) (hst : st.InLanguage)
    (h : Reaches set into fuel p st m) : m.task.InLanguage ∧ m.state.InLanguage := by
  induction h with
  | begun hb => exact begins_inLanguage hlibrary hp hst hb
  | inside _ hb _ ih =>
    obtain ⟨ht, hnow⟩ := begins_inLanguage hlibrary hp hst hb
    exact ih (script_regular hlibrary ht) hnow

end

end Offside.Evaluator
