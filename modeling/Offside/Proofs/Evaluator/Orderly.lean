import Offside.Proofs.Evaluator.Reach
import Offside.Proofs.Evaluator.Reporting

/-!
Runs of plain trees. The script of a task on nodes of an accepted program does nothing but what is
reported, and begins tasks of this sort only; so every run is reported, as long as it calls no
builtin that has to do with the disk.
-/

namespace Offside

namespace Node

/-- Expressions of an accepted program. -/
structure PlainValue (R : Prop) (n : Node) : Prop where
  evaluable : n.Evaluable
  all : n.All (Plain R)

/-- Statements of an accepted program. -/
structure PlainAction (R : Prop) (n : Node) : Prop where
  executable : ∃ context, n.Executable true context
  all : n.All (Plain R)

variable {n : Node}

theorem pos_of_evaluable (h : n.Evaluable) : ∃ p, n.pos? = some p := by
  cases h <;> exact ⟨_, rfl⟩

theorem pos_of_executable {whiles : Bool} {context : Parser.Context}
    (h : n.Executable whiles context) : ∃ p, n.pos? = some p := by
  cases h <;> exact ⟨_, rfl⟩

end Node

namespace Evaluator

open Run

/-- A task on nodes of an accepted program, with values of the language. -/
def Task.Plain (R : Prop) : Task → Prop
  | evaluate node _ | test _ node _ => node.PlainValue R
  | part _ _ node _ => ∃ n ∈ node, n.PlainValue R
  | call f args => f.Proper ∧ ∀ v ∈ args, v.Proper
  | work (.execute node _) => node.PlainAction R
  | work (.branches _ bs elseBody _) =>
    (∀ b ∈ bs, b.1.PlainValue R ∧ ∀ n ∈ b.2, n.PlainAction R) ∧
      ∀ b ∈ elseBody, ∀ n ∈ b, n.PlainAction R
  | work (.rounds _ condition body _ _) =>
    condition.PlainValue R ∧ ∀ n ∈ body, n.PlainAction R

/-- What such a task gives. -/
def Task.Gives : (t : Task) → t.Result → Prop
  | evaluate .. | part .. | call .. => Value.Proper
  | test .. => Always
  | work _ => Completion.Proper

/-- A builtin that the task calls has nothing to do with the disk. -/
def Task.OffDisk (registry : Registry) : Task → Prop
  | call (.native name) _ | call (.bound name _) _ =>
    registry.contains name = true → Library.isDiskName name = false
  | _ => True

/-- A script of plain tasks, with reported actions in between, and a result that satisfies `P`. -/
inductive Orderly (set : Settings) (R : Prop) :
    {α : Type} → (α → Prop) → Script α → Prop where
  | done {α : Type} {P : α → Prop} {a : α} : P a → Orderly set R P (.done a)
  | act {α β : Type} {P : α → Prop} {Q : β → Prop} {x : Run β} {next : β → Script α} :
      Reports set R Q x → (∀ b, Q b → Orderly set R P (next b)) → Orderly set R P (.act x next)
  | task {α : Type} {P : α → Prop} {t : Task} {next : t.Result → Script α} : t.Plain R →
      (∀ b, t.Gives b → Orderly set R P (next b)) → Orderly set R P (.task t next)
  | located {α β : Type} {P : α → Prop} {Q : β → Prop} {p : Place} {inner : Script β}
      {next : β → Script α} : Orderly set R Q inner →
      (∀ b, Q b → Orderly set R P (next b)) → Orderly set R P (.located p inner next)
  | deeper {α β : Type} {P : α → Prop} {Q : β → Prop} {inner : Script β} {next : β → Script α} :
      Orderly set R Q inner → (∀ b, Q b → Orderly set R P (next b)) →
      Orderly set R P (.deeper inner next)

section

variable {set : Settings} {R : Prop} {α β γ : Type} {P : α → Prop} {Q : β → Prop}
  {S : γ → Prop} {s : Nat}

theorem orderly_pure {a : α} (h : P a) : Orderly set R P (pure a : Script α) := .done h

theorem orderly_bind {p : Script β} {f : β → Script α} (hp : Orderly set R Q p)
    (hf : ∀ b, Q b → Orderly set R P (f b)) : Orderly set R P (p >>= f) := by
  change Orderly set R P (p.andThen f)
  induction hp with
  | done h => exact hf _ h
  | act hx _ ih => exact .act hx fun b hb => ih b hb hf
  | task ht _ ih => exact .task ht fun b hb => ih b hb hf
  | located hi _ _ ih => exact .located hi fun b hb => ih b hb hf
  | deeper hi _ _ ih => exact .deeper hi fun b hb => ih b hb hf

theorem orderly_doing {x : Run α} (h : Reports set R P x) :
    Orderly set R P (Script.doing x) :=
  .act h fun _ => .done

theorem orderly_task {t : Task} (h : t.Plain R) : Orderly set R t.Gives (.task t .done) :=
  .task h fun _ => .done

theorem orderly_value {node : Node} (h : node.PlainValue R) :
    Orderly set R Value.Proper (Script.value node s) :=
  orderly_task (t := .evaluate node s) h

theorem orderly_part {owner n : Node} {name : String} (h : n.PlainValue R) :
    Orderly set R Value.Proper (Script.part owner name (some n) s) :=
  orderly_task (t := .part owner name (some n) s) ⟨n, rfl, h⟩

theorem orderly_test {kind : Test} {condition : Node} (h : condition.PlainValue R) :
    Orderly set R Always (Script.test kind condition s) :=
  orderly_task (t := .test kind condition s) h

theorem orderly_perform {w : Work} (h : (Task.work w).Plain R) :
    Orderly set R Completion.Proper (Script.perform w) :=
  orderly_task h

theorem orderly_each {f : β → Script γ} {bs : List β} (h : ∀ b ∈ bs, Orderly set R S (f b)) :
    Orderly set R (fun cs => ∀ c ∈ cs, S c) (Script.each f bs) := by
  induction bs with
  | nil => exact orderly_pure (List.forall_mem_nil _)
  | cons b bs ih =>
    obtain ⟨hb, hbs⟩ := List.forall_mem_cons.mp h
    refine orderly_bind hb fun c hc => orderly_bind (ih hbs) fun cs hcs => orderly_pure ?_
    exact List.forall_mem_cons.mpr ⟨hc, hcs⟩

/-! ### Expressions -/

theorem binaryScript_orderly {op : String} {left right : Node} (hop : op = "%" → R)
    (hl : left.PlainValue R) (hr : right.PlainValue R) :
    Orderly set R Value.Proper (binaryScript op left right s) := by
  unfold binaryScript
  split
  · refine orderly_bind (orderly_value hl) fun v _ => ?_
    refine orderly_bind (orderly_doing (booleanAt_reports _ _ v)) fun a _ => ?_
    split
    · exact orderly_pure trivial
    · refine orderly_bind (orderly_value hr) fun v _ => ?_
      refine orderly_bind (orderly_doing (booleanAt_reports _ _ v)) fun b _ => ?_
      exact orderly_pure trivial
  · refine orderly_bind (orderly_value hl) fun a _ => orderly_bind (orderly_value hr) fun b _ => ?_
    exact orderly_doing (applyBinary_reports hop a b)

theorem entryScript_orderly {e : Node × Node} (hk : e.1.PlainValue R) (hv : e.2.PlainValue R) :
    Orderly set R (fun e => e.1.Proper ∧ e.2.Proper) (entryScript s e) := by
  refine orderly_bind (orderly_value hk) fun k hk => ?_
  refine orderly_bind (orderly_doing (checkKey_reports _ k)) fun _ _ => ?_
  exact orderly_bind (orderly_value hv) fun v hv => orderly_pure ⟨hk, hv⟩

theorem literal_proper {p : Place} {v kind : Json} (h : (Node.literal p v kind).Textual) :
    (if kind.isText "None" then Value.none else .ofJson v).Proper := by
  rcases h with h | h
  · rw [if_pos h]
    trivial
  · split
    · trivial
    · exact Value.proper_ofJson h

theorem valueScript_orderly {node : Node} (h : node.PlainValue R) :
    Orderly set R Value.Proper (valueScript set node s) := by
  obtain ⟨hnode, hall⟩ := h
  have hpart {m : Node} (hm : m ∈ node.parts) (he : m.Evaluable) : m.PlainValue R :=
    ⟨he, hall.part hm⟩
  cases hnode with
  | literal => exact orderly_pure (literal_proper hall.here.textual)
  | identifier =>
    obtain ⟨name, rfl⟩ := hall.here.textual
    exact orderly_doing (lookUp_reports s name)
  | unaryOp _ ha =>
    refine orderly_bind (orderly_value (hpart (by simp [Node.parts]) ha)) fun v _ => ?_
    exact orderly_doing (applyUnary_reports _ v)
  | binaryOp _ ha hb =>
    refine binaryScript_orderly (fun hop => hall.here.remainder ?_)
      (hpart (by simp [Node.parts]) ha) (hpart (by simp [Node.parts]) hb)
    exact congrArg Json.string hop
  | call hf has =>
    refine orderly_bind (orderly_value (hpart (by simp [Node.parts]) hf)) fun f hf => ?_
    refine orderly_bind (orderly_each fun a ha => orderly_value (hpart ?_ (has a ha))) ?_
    · exact List.mem_cons_of_mem _ ha
    · exact fun args hargs => orderly_task (t := .call f args) ⟨hf, hargs⟩
  | index ht hi =>
    refine orderly_bind (orderly_value (hpart (by simp [Node.parts]) ht)) fun t _ => ?_
    refine orderly_bind (orderly_value (hpart (by simp [Node.parts]) hi)) fun i _ => ?_
    exact orderly_doing (readItem_reports t i)
  | member ht =>
    refine orderly_bind (orderly_value (hpart (by simp [Node.parts]) ht)) fun t _ => ?_
    exact orderly_doing (bindMethod_reports t _)
  | listLiteral hes =>
    refine orderly_bind (orderly_each fun e he => orderly_value (hpart he (hes e he))) ?_
    exact fun vs hvs => orderly_doing (newList_reports hvs)
  | mapLiteral hks hvs =>
    have hentry {e : Node × Node} (he : e ∈ _) : e.1.PlainValue R ∧ e.2.PlainValue R :=
      ⟨hpart (List.mem_flatMap.mpr ⟨e, he, by simp⟩) (hks e he),
        hpart (List.mem_flatMap.mpr ⟨e, he, by simp⟩) (hvs e he)⟩
    refine orderly_bind (orderly_each fun e he =>
      entryScript_orderly (hentry he).1 (hentry he).2) fun es hes => ?_
    exact orderly_doing (newMapping_reports (Mapping.ofEntries_proper hes))
  | @lambda p ps b _ hb =>
    obtain ⟨q, hq⟩ := Node.pos_of_evaluable hb
    refine orderly_bind (orderly_doing (place_reports hq)) fun q _ => ?_
    refine orderly_doing (newFunction_reports _ ⟨hall.here.textual, ?_, ?_⟩)
    · exact List.forall_mem_singleton.mpr (.returnStmt rfl hb)
    · refine List.forall_mem_singleton.mpr (Node.all_of_parts ⟨trivial, False.elim⟩ ?_)
      exact List.forall_mem_singleton.mpr (hall.part (by simp [Node.parts]))

/-! ### Statements -/

theorem block_orderly {ns : List Node} (h : ∀ n ∈ ns, n.PlainAction R) :
    Orderly set R Completion.Proper (Script.block s ns) := by
  induction ns with
  | nil => exact orderly_pure trivial
  | cons n ns ih =>
    obtain ⟨hn, hns⟩ := List.forall_mem_cons.mp h
    refine orderly_bind (orderly_perform (w := .execute n s) hn) fun completion hc => ?_
    cases completion with
    | normal => exact ih hns
    | _ => exact orderly_pure hc

theorem visits_orderly {node : Node} {name : String} {body : List Node}
    (h : ∀ n ∈ body, n.PlainAction R) {items : List Value} (hitems : ∀ v ∈ items, v.Proper) :
    Orderly set R Completion.Proper (visits set node name body s items) := by
  induction items with
  | nil => exact orderly_pure trivial
  | cons item rest ih =>
    obtain ⟨hitem, hrest⟩ := List.forall_mem_cons.mp hitems
    refine orderly_bind (orderly_doing (visit_reports node name s hitem)) fun _ _ => ?_
    refine orderly_bind (block_orderly h) fun completion hc => ?_
    cases completion with
    | normal => exact ih hrest
    | continued => exact ih hrest
    | broken => exact orderly_pure trivial
    | returned v => exact orderly_pure hc

theorem assignScript_orderly {target : Node} (ht : target.PlainValue R)
    (ha : Parser.isAssignable target = true) {v : Value} (hv : v.Proper) :
    Orderly set R Completion.Proper (assignScript set target v s) := by
  obtain ⟨htarget, hall⟩ := ht
  cases htarget with
  | identifier =>
    obtain ⟨name, rfl⟩ := hall.here.textual
    refine orderly_bind (orderly_doing (assignName_reports s name hv)) fun _ _ => ?_
    exact orderly_pure trivial
  | index hc hk =>
    refine orderly_bind (orderly_value ⟨hc, hall.part (by simp [Node.parts])⟩) fun c _ => ?_
    refine orderly_bind (orderly_value ⟨hk, hall.part (by simp [Node.parts])⟩) fun k _ => ?_
    refine orderly_bind (orderly_doing (writeItem_reports c k hv)) fun _ _ => ?_
    exact orderly_pure trivial
  | _ => cases ha

theorem augmentScript_orderly {target node : Node} {op : String} (ht : target.PlainValue R)
    (ha : Parser.isAssignable target = true) (hop : op = "%" → R) (hn : node.PlainValue R) :
    Orderly set R Completion.Proper (augmentScript set target op node s) := by
  have hvalue : Orderly set R Value.Proper (Script.value target s) := orderly_value ht
  obtain ⟨htarget, hall⟩ := ht
  cases htarget with
  | identifier =>
    obtain ⟨name, rfl⟩ := hall.here.textual
    refine orderly_bind hvalue fun current _ => orderly_bind (orderly_value hn) fun v _ => ?_
    refine orderly_bind (orderly_doing (applyBinary_reports hop current v)) fun v hv => ?_
    refine orderly_bind (orderly_doing (assignName_reports s name hv)) fun _ _ => ?_
    exact orderly_pure trivial
  | index hc hk =>
    refine orderly_bind (orderly_part ⟨hc, hall.part (by simp [Node.parts])⟩) fun c _ => ?_
    refine orderly_bind (orderly_part ⟨hk, hall.part (by simp [Node.parts])⟩) fun k _ => ?_
    refine orderly_bind (orderly_doing (readItem_reports c k)) fun current _ => ?_
    refine orderly_bind (orderly_value hn) fun v _ => ?_
    refine orderly_bind (orderly_doing (applyBinary_reports hop current v)) fun v hv => ?_
    refine orderly_bind (orderly_doing (writeItem_reports c k hv)) fun _ _ => ?_
    exact orderly_pure trivial
  | _ => cases ha

theorem statementScript_orderly {node : Node} (h : node.PlainAction R) :
    Orderly set R Completion.Proper (statementScript set node s) := by
  obtain ⟨⟨context, hnode⟩, hall⟩ := h
  have hvalue {m : Node} (hm : m ∈ node.parts) (he : m.Evaluable) : m.PlainValue R :=
    ⟨he, hall.part hm⟩
  have haction {context : Parser.Context} {m : Node} (hm : m ∈ node.parts)
      (he : m.Executable true context) : m.PlainAction R := ⟨⟨_, he⟩, hall.part hm⟩
  cases hnode with
  | exprStmt he =>
    refine orderly_bind (orderly_value (hvalue (by simp [Node.parts]) he)) fun _ _ => ?_
    exact orderly_pure trivial
  | assign ht ha hv =>
    refine orderly_bind (orderly_value (hvalue (by simp [Node.parts]) hv)) fun v hv => ?_
    exact assignScript_orderly (hvalue (by simp [Node.parts]) ht) ha hv
  | augAssign ht ha _ hv =>
    refine augmentScript_orderly (hvalue (by simp [Node.parts]) ht) ha
      (fun hop => hall.here.remainder ?_) (hvalue (by simp [Node.parts]) hv)
    exact congrArg Json.string hop
  | @ifStmt _ p bs e _ hcs hbs he =>
    have hbranch {b : Node × List Node} {m : Node} (hb : b ∈ bs) (hm : m ∈ b.1 :: b.2) :
        m ∈ (Node.ifStmt p bs e).parts :=
      List.mem_append_left _ (List.mem_flatMap.mpr ⟨b, hb, hm⟩)
    refine orderly_perform (w := .branches _ _ _ _) ⟨fun b hb => ⟨?_, fun n hn => ?_⟩, ?_⟩
    · exact hvalue (hbranch hb List.mem_cons_self) (hcs b hb)
    · exact haction (hbranch hb (List.mem_cons_of_mem _ hn)) (hbs b hb n hn)
    · rintro b rfl n hn
      exact haction (List.mem_append_right _ hn) (he b rfl n hn)
  | whileStmt _ hc hb =>
    refine orderly_perform (w := .rounds _ _ _ _ _) ⟨?_, fun n hn => ?_⟩
    · exact hvalue List.mem_cons_self hc
    · exact haction (List.mem_cons_of_mem _ hn) (hb n hn)
  | forStmt hi hb =>
    obtain ⟨name, rfl⟩ := hall.here.textual
    refine orderly_bind (orderly_value (hvalue List.mem_cons_self hi)) fun v _ => ?_
    refine orderly_bind (orderly_doing (itemsOf_reports v)) fun items hitems => ?_
    exact visits_orderly (fun n hn => haction (List.mem_cons_of_mem _ hn) (hb n hn)) hitems
  | functionDef _ hb =>
    obtain ⟨⟨name, rfl⟩, hparams⟩ := hall.here.textual
    refine orderly_bind (orderly_doing (newFunction_reports _ ⟨hparams, hb, ?_⟩)) fun f hf => ?_
    · exact fun n hn => hall.part hn
    · refine orderly_bind (orderly_doing (define_reports s name hf)) fun _ _ => ?_
      refine orderly_bind (orderly_doing (traceFunction_reports _ hparams)) fun _ _ => ?_
      exact orderly_pure trivial
  | returnNone => exact orderly_pure trivial
  | @returnStmt _ p v _ hv =>
    have hreturn : returnScript v s = do return .returned (← Script.value v s) := by
      cases hv <;> rfl
    rw [statementScript, hreturn]
    refine orderly_bind (orderly_value (hvalue (by simp [Node.parts]) hv)) fun v hv => ?_
    exact orderly_pure hv
  | breakStmt => exact orderly_pure trivial
  | continueStmt => exact orderly_pure trivial
  | passStmt => exact orderly_pure trivial
  | delete ht hi =>
    have htarget := hall.part (List.mem_singleton_self _)
    refine orderly_bind (orderly_part ⟨ht, htarget.part (by simp [Node.parts])⟩) fun c _ => ?_
    refine orderly_bind (orderly_part ⟨hi, htarget.part (by simp [Node.parts])⟩) fun k _ => ?_
    exact orderly_bind (orderly_doing (deleteItem_reports c k)) fun _ _ => orderly_pure trivial

theorem branchScript_orderly {node : Node} {bs : List (Node × List Node)}
    {elseBody : Option (List Node)}
    (hbs : ∀ b ∈ bs, b.1.PlainValue R ∧ ∀ n ∈ b.2, n.PlainAction R)
    (he : ∀ b ∈ elseBody, ∀ n ∈ b, n.PlainAction R) :
    Orderly set R Completion.Proper (branchScript set node bs elseBody s) := by
  have htrace (line : Heap → String) : Orderly set R Always (Script.doing (traceAt set 3 line)) :=
    orderly_doing (traceAt_reports (by decide) line)
  rcases bs with _ | ⟨⟨condition, body⟩, rest⟩
  · cases elseBody with
    | none => exact orderly_pure trivial
    | some body => exact orderly_bind (htrace _) fun _ _ => block_orderly (he body rfl)
  · obtain ⟨⟨hc, hb⟩, hrest⟩ := List.forall_mem_cons.mp hbs
    refine orderly_bind (orderly_test hc) fun taken _ => orderly_bind (htrace _) fun _ _ => ?_
    split
    · exact block_orderly hb
    · exact orderly_perform (w := .branches _ _ _ _) ⟨hrest, he⟩

theorem roundScript_orderly {node condition : Node} {body : List Node} {round : Nat}
    (hc : condition.PlainValue R) (hb : ∀ n ∈ body, n.PlainAction R) :
    Orderly set R Completion.Proper (roundScript set node condition body round s) := by
  refine orderly_bind (orderly_test hc) fun holds _ => ?_
  cases holds with
  | false => exact orderly_pure trivial
  | true =>
    refine orderly_bind (orderly_doing (traceAt_reports (by decide) _)) fun _ _ => ?_
    refine orderly_bind (block_orderly hb) fun completion hcompletion => ?_
    have hagain : Orderly set R Completion.Proper
        (Script.perform (.rounds node condition body (round + 1) s)) :=
      orderly_perform ⟨hc, hb⟩
    cases completion with
    | normal => exact hagain
    | continued => exact hagain
    | broken => exact orderly_pure trivial
    | returned v => exact orderly_pure hcompletion

/-! ### Calls -/

theorem callScript_orderly (hlibrary : ∀ b ∈ set.registry.builtins, b ∈ Library.builtins)
    {f : Value} {args : List Value} (hf : f.Proper) (hargs : ∀ v ∈ args, v.Proper)
    (hdisk : (Task.call f args).OffDisk set.registry) :
    Orderly set R Value.Proper (callScript set f args) := by
  cases f with
  | function id name =>
    refine orderly_bind (orderly_doing (closureOf_reports id)) fun closure hclosure => ?_
    refine orderly_bind (orderly_doing (checkArity_reports _ _ _)) fun _ _ => ?_
    refine orderly_bind (orderly_doing (checkDepth_reports _ _)) fun _ _ => ?_
    refine orderly_bind (orderly_doing (enter_reports _ hclosure hargs)) fun inner _ => ?_
    have hbody : ∀ n ∈ closure.body, n.PlainAction R :=
      fun n hn => ⟨⟨_, hclosure.body n hn⟩, hclosure.nodes n hn⟩
    exact .deeper (block_orderly hbody) fun _ hc => orderly_pure hc.value
  | native name =>
    refine orderly_doing (callBuiltin_reports hlibrary hdisk ⟨hargs, fun hdot => ?_⟩)
    exact absurd hdot hf
  | bound name receiver =>
    refine orderly_doing (callBuiltin_reports hlibrary hdisk ⟨?_, fun _ => ?_⟩)
    · exact List.forall_mem_cons.mpr ⟨Value.proper_of_serves hf, hargs⟩
    · exact ⟨receiver, args, rfl, hf⟩
  | _ => exact orderly_doing (reports_refuse _)

/-- The script of a plain task is orderly. -/
theorem script_orderly (hlibrary : ∀ b ∈ set.registry.builtins, b ∈ Library.builtins) {t : Task}
    (h : t.Plain R) (hdisk : t.OffDisk set.registry) : Orderly set R t.Gives (t.script set) := by
  cases t with
  | evaluate node s =>
    obtain ⟨p, hp⟩ := Node.pos_of_evaluable h.evaluable
    refine orderly_bind (orderly_doing (place_reports hp)) fun p _ => ?_
    exact .located (valueScript_orderly h) fun _ => .done
  | part owner name node s =>
    obtain ⟨n, rfl, hn⟩ := h
    exact orderly_value hn
  | test kind condition s =>
    refine orderly_bind (orderly_value h) fun v _ => ?_
    exact orderly_doing (booleanAt_reports _ _ v)
  | call f args => exact callScript_orderly hlibrary h.1 h.2 hdisk
  | work w =>
    cases w with
    | execute node s =>
      obtain ⟨p, hp⟩ := Node.pos_of_executable h.executable.choose_spec
      refine orderly_bind (orderly_doing (place_reports hp)) fun p _ => ?_
      refine .located ?_ fun _ => .done
      refine orderly_bind (orderly_doing (traceAt_reports (by decide) _)) fun _ _ => ?_
      exact statementScript_orderly h
    | branches node bs elseBody s => exact branchScript_orderly h.1 h.2
    | rounds node condition body round s => exact roundScript_orderly h.1 h.2

/-! ### Runs -/

variable {fuel : Nat} {st : State}

/-- An orderly script ends as its tasks do. -/
theorem play_reported {p : Script α} (hp : Orderly set R P p) (hst : st.Proper set R)
    (h : ∀ t now, p.Begins set fuel t now st → t.Plain R → now.Proper set R →
      Reported set R t.Gives (t.run set fuel now)) :
    Reported set R P (p.play (Task.run set fuel) st) := by
  induction hp generalizing st with
  | done hP => exact ⟨hP, hst⟩
  | act hx _ ih =>
    refine reported_bind (hx.reported st hst) fun b st' hok hb hst' => ih b hb hst' ?_
    exact fun t now hbegins => h t now ⟨b, st', hok, hbegins⟩
  | @task _ _ t _ ht _ ih =>
    refine reported_bind (h t st (.inl ⟨rfl, rfl⟩) ht hst) fun b st' hok hb hst' => ih b hb hst' ?_
    exact fun t now hbegins => h t now (.inr ⟨b, st', hok, hbegins⟩)
  | located _ _ ihinner ih =>
    have hinner := ihinner hst fun t now hbegins => h t now (.inl hbegins)
    refine reported_bind (reported_located _ hinner) fun b st' hok hb hst' => ih b hb hst' ?_
    exact fun t now hbegins => h t now (.inr ⟨b, st', hok, hbegins⟩)
  | deeper _ _ ihinner ih =>
    have hinner := ihinner (State.Proper.atDepth hst _) fun t now hbegins => h t now (.inl hbegins)
    refine reported_bind (reported_deeper hinner) fun b st' hok hb hst' => ih b hb hst' ?_
    exact fun t now hbegins => h t now (.inr ⟨b, st', hok, hbegins⟩)

/-- A plain task that reaches no task of the disk is reported. -/
theorem run_reported (hlibrary : ∀ b ∈ set.registry.builtins, b ∈ Library.builtins) {t : Task}
    (ht : t.Plain R) (hdisk : t.OffDisk set.registry) (hst : st.Proper set R)
    (h : ∀ f m, fuel = f + 1 → Reaches set (fun _ => True) f (t.script set) st m →
      m.task.OffDisk set.registry) : Reported set R t.Gives (t.run set fuel st) := by
  induction fuel generalizing t st with
  | zero =>
    rw [run_zero]
    exact ⟨trivial, hst⟩
  | succ fuel ih =>
    rw [run_succ]
    refine play_reported (script_orderly hlibrary ht hdisk) hst fun t' now hb ht' hnow => ?_
    refine ih ht' (h fuel _ rfl (.begun hb)) hnow ?_
    rintro f m rfl hm
    exact h _ m rfl (.inside trivial hb hm)

/-- So is an orderly script that reaches none. -/
theorem script_reported (hlibrary : ∀ b ∈ set.registry.builtins, b ∈ Library.builtins)
    {p : Script α} (hp : Orderly set R P p) (hst : st.Proper set R)
    (h : ∀ m, Reaches set (fun _ => True) fuel p st m → m.task.OffDisk set.registry) :
    Reported set R P (p.play (Task.run set fuel) st) := by
  refine play_reported hp hst fun t now hb ht hnow => ?_
  refine run_reported hlibrary ht (h _ (.begun hb)) hnow ?_
  rintro f m rfl hm
  exact h m (.inside trivial hb hm)

end

end Evaluator

end Offside
