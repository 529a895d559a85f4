import Offside.Proofs.Evaluator.Reach

/-!
How far `break`, `continue` and `return` get. Every rule for statements but that for `return` passes
on a value that a statement inside it returned, at once and to nothing else, so that a list of
statements returns what the first `return` executed in it gives. A loop takes up the other two, and
a body that comes from an accepted program has none of them outside a loop.
-/

namespace Offside

namespace Node

def IsLoop : Node → Prop
  | whileStmt .. | forStmt .. => True
  | _ => False

/-- A loop may stand wherever it stands outside of other loops. -/
theorem executable_loop {whiles : Bool} {context : Parser.Context} {n : Node} (hn : n.IsLoop)
    (h : n.Executable whiles context) : n.Executable whiles { context with inLoop := false } := by
  cases h with
  | whileStmt hw hc hb => exact .whileStmt hw hc hb
  | forStmt hi hb => exact .forStmt hi hb
  | _ => cases hn

end Node

namespace Evaluator

open Script

variable {set : Settings} {whiles : Bool} {context : Parser.Context} {d fuel s : Nat}
  {α β : Type} {st st' : State} {v : Value}

theorem allowed_outside_loops {c : Completion} {inFunction : Bool}
    (h : c.Allowed ⟨false, inFunction⟩) :
    c = .normal ∨ ∃ v, c = .returned v := by
  cases c with
  | normal => exact .inl rfl
  | returned v => exact .inr ⟨v, rfl⟩
  | _ => cases h

theorem allowed_outside {c : Completion} (h : c.Allowed ⟨false, false⟩) : c = .normal := by
  rcases allowed_outside_loops h with rfl | ⟨v, rfl⟩
  · rfl
  · cases h

/-- A loop completes normally or with a value. -/
theorem loop_completes {node : Node} (hn : node.IsLoop) (h : node.Executable whiles context)
    (hst : At whiles d st) {c : Completion} (hc : execute set fuel node s st = .ok c st') :
    c = .normal ∨ ∃ v, c = .returned v := by
  have hmeets : Meets whiles d _ (execute set fuel node s st) :=
    run_meets fuel (t := .work (.execute node s)) (Node.executable_loop hn h) hst
  exact allowed_outside_loops (meets_ok hmeets hc).1

/-! ### A returned value is passed on -/

def Task.IsWork : Task → Prop
  | work _ => True
  | _ => False

def Work.IsReturn : Work → Prop
  | execute (.returnStmt ..) _ => True
  | _ => False

/-- Among the statements themselves, not in a call inside them, a `return` is executed and gives
`v`. -/
def Returns (set : Settings) (fuel : Nat) (p : Script Completion) (st : State) (v : Value)
    (st' : State) : Prop :=
  ∃ (q : Place) (node : Node) (s k : Nat) (now : State),
    Reaches set Task.IsWork fuel p st ⟨.work (.execute (.returnStmt q node) s), k, now⟩ ∧
      execute set k (.returnStmt q node) s now = .ok (.returned v) st'

/-- A script that executes no statement. -/
def Plain (set : Settings) (fuel : Nat) (p : Script α) : Prop :=
  ∀ w now st, ¬ p.Begins set fuel (.work w) now st

/-- A script that returns a value when, and as soon as, a part of it does. -/
def Relays (set : Settings) (fuel : Nat) (p : Script Completion) : Prop :=
  ∀ st v st', p.play (Task.run set fuel) st = .ok (.returned v) st' ↔
    ∃ w now, p.Begins set fuel (.work w) now st ∧ w.run set fuel now = .ok (.returned v) st'

theorem plain_pure (a : α) : Plain set fuel (pure a : Script α) := fun _ _ _ h => h

theorem plain_doing (x : Run α) : Plain set fuel (doing x) := by
  rintro w now st ⟨_, _, _, h⟩
  exact h

theorem plain_task {t : Task} (ht : ¬ t.IsWork) : Plain set fuel (.task t .done) := by
  rintro w now st (⟨rfl, -⟩ | ⟨_, _, _, h⟩)
  · exact ht trivial
  · exact h

theorem plain_value (node : Node) (s : Nat) : Plain set fuel (value node s) := plain_task id

theorem plain_part (owner : Node) (name : String) (node : Option Node) (s : Nat) :
    Plain set fuel (part owner name node s) := plain_task id

theorem plain_test (kind : Test) (node : Node) (s : Nat) : Plain set fuel (test kind node s) :=
  plain_task id

theorem plain_bind {p : Script β} {f : β → Script α} (hp : Plain set fuel p)
    (hf : ∀ b, Plain set fuel (f b)) : Plain set fuel (p >>= f) := by
  intro w now st h
  rcases begins_bind.mp h with h | ⟨b, st', -, h⟩
  · exact hp w now st h
  · exact hf b w now st' h

theorem plain_inNode {p : Place} {inner : Script α} (h : Plain set fuel inner) :
    Plain set fuel (inNode p inner) := by
  rintro w now st (hb | ⟨_, _, _, hb⟩)
  · exact h w now st hb
  · exact hb

theorem relays_pure {c : Completion} (hc : ∀ v, c ≠ .returned v) :
    Relays set fuel (pure c) := by
  intro st v st'
  constructor
  · rintro ⟨⟩
    exact absurd rfl (hc v)
  · rintro ⟨w, now, h, -⟩
    cases h

theorem relays_refuse (c : Cause) : Relays set fuel (doing (Run.refuse c)) := by
  intro st v st'
  constructor
  · rintro ⟨⟩
  · rintro ⟨w, now, h, -⟩
    exact absurd h (plain_doing _ w now st)

theorem relays_perform (w : Work) : Relays set fuel (perform w) := by
  intro st v st'
  rw [play_perform]
  constructor
  · exact fun h => ⟨w, st, .inl ⟨rfl, rfl⟩, h⟩
  · rintro ⟨w', now, ⟨hw, rfl⟩ | ⟨_, _, _, hb⟩, h⟩
    · obtain rfl := Task.work.inj hw
      exact h
    · cases hb

theorem relays_bind {p : Script β} {f : β → Script Completion} (hp : Plain set fuel p)
    (hf : ∀ b, Relays set fuel (f b)) : Relays set fuel (p >>= f) := by
  intro st v st'
  rw [play_bind, bind_ok]
  constructor
  · rintro ⟨b, st₁, hb, h⟩
    obtain ⟨w, now, hbegins, hrun⟩ := (hf b st₁ v st').mp h
    exact ⟨w, now, begins_bind.mpr (.inr ⟨b, st₁, hb, hbegins⟩), hrun⟩
  · rintro ⟨w, now, h, hrun⟩
    rcases begins_bind.mp h with h | ⟨b, st₁, hb, h⟩
    · exact absurd h (hp w now st)
    · exact ⟨b, st₁, hb, (hf b st₁ v st').mpr ⟨w, now, h, hrun⟩⟩

/-- What comes after statements does nothing once they returned a value. -/
theorem relays_then {p : Script Completion} {f : Completion → Script Completion}
    (hp : Relays set fuel p) (hreturned : ∀ v, f (.returned v) = pure (.returned v))
    (hf : ∀ c, (∀ v, c ≠ .returned v) → Relays set fuel (f c)) : Relays set fuel (p >>= f) := by
  intro st v st'
  rw [play_bind, bind_ok]
  constructor
  · rintro ⟨c, st₁, hc, h⟩
    by_cases hreturn : ∃ v, c = .returned v
    · obtain ⟨v', rfl⟩ := hreturn
      rw [hreturned] at h
      cases h
      obtain ⟨w, now, hbegins, hrun⟩ := (hp st v st').mp hc
      exact ⟨w, now, begins_bind.mpr (.inl hbegins), hrun⟩
    · obtain ⟨w, now, hbegins, hrun⟩ := (hf c (not_exists.mp hreturn) st₁ v st').mp h
      exact ⟨w, now, begins_bind.mpr (.inr ⟨c, st₁, hc, hbegins⟩), hrun⟩
  · rintro ⟨w, now, h, hrun⟩
    rcases begins_bind.mp h with h | ⟨c, st₁, hc, h⟩
    · refine ⟨_, _, (hp st v st').mpr ⟨w, now, h, hrun⟩, ?_⟩
      rw [hreturned]
      rfl
    · by_cases hreturn : ∃ v, c = .returned v
      · obtain ⟨v', rfl⟩ := hreturn
        rw [hreturned] at h
        cases h
      · exact ⟨c, st₁, hc, (hf c (not_exists.mp hreturn) st₁ v st').mpr ⟨w, now, h, hrun⟩⟩

theorem located_ok {p : Place} {x : Run α} {a : α} :
    Run.located p x st = .ok a st' ↔ x st = .ok a st' := by
  unfold Run.located
  cases x st with
  | ok => exact Iff.rfl
  | error e => cases e <;> exact ⟨nofun, nofun⟩

theorem relays_inNode {p : Place} {inner : Script Completion} (h : Relays set fuel inner) :
    Relays set fuel (inNode p inner) := by
  intro st v st'
  rw [play_inNode, located_ok, h st v st']
  constructor
  · rintro ⟨w, now, hb, hrun⟩
    exact ⟨w, now, .inl hb, hrun⟩
  · rintro ⟨w, now, hb | ⟨_, _, _, hb⟩, hrun⟩
    · exact ⟨w, now, hb, hrun⟩
    · cases hb

/-! ### The rules for statements -/

theorem block_relays (s : Nat) (ns : List Node) : Relays set fuel (block s ns) := by
  induction ns with
  | nil => exact relays_pure nofun
  | cons node rest ih =>
    refine relays_then (relays_perform _) (fun _ => rfl) fun c hc => ?_
    cases c with
    | normal => exact ih
    | returned v => exact absurd rfl (hc v)
    | _ => exact relays_pure nofun

theorem visits_relays (node : Node) (name : Json) (body : List Node) (s : Nat)
    (items : List Value) : Relays set fuel (visits set node name body s items) := by
  induction items with
  | nil => exact relays_pure nofun
  | cons item rest ih =>
    refine relays_bind (plain_doing _) fun _ => ?_
    refine relays_then (block_relays s body) (fun _ => rfl) fun c hc => ?_
    cases c with
    | normal => exact ih
    | continued => exact ih
    | broken => exact relays_pure nofun
    | returned v => exact absurd rfl (hc v)

theorem branches_relay (node : Node) (bs : List (Node × List Node))
    (elseBody : Option (List Node)) (s : Nat) :
    Relays set fuel (branchScript set node bs elseBody s) := by
  rcases bs with _ | ⟨⟨condition, body⟩, rest⟩
  · cases elseBody with
    | none => exact relays_pure nofun
    | some body => exact relays_bind (plain_doing _) fun _ => block_relays s body
  · refine relays_bind (plain_test _ _ _) fun taken => relays_bind (plain_doing _) fun _ => ?_
    cases taken with
    | true => exact block_relays s body
    | false => exact relays_perform _

theorem round_relays (node condition : Node) (body : List Node) (round s : Nat) :
    Relays set fuel (roundScript set node condition body round s) := by
  refine relays_bind (plain_test _ _ _) fun holds => ?_
  cases holds with
  | false => exact relays_pure nofun
  | true =>
    refine relays_bind (plain_doing _) fun _ => ?_
    refine relays_then (block_relays s body) (fun _ => rfl) fun c hc => ?_
    cases c with
    | normal => exact relays_perform _
    | continued => exact relays_perform _
    | broken => exact relays_pure nofun
    | returned v => exact absurd rfl (hc v)

/-- A script that executes no statement and ends like one that completes normally. -/
theorem relays_normal {p : Script β} (hp : Plain set fuel p) :
    Relays set fuel (p >>= fun _ => pure .normal) :=
  relays_bind hp fun _ => relays_pure nofun

theorem assign_relays (target : Node) (v : Value) (s : Nat) :
    Relays set fuel (assignScript set target v s) := by
  cases target with
  | identifier => exact relays_normal (plain_doing _)
  | index =>
    refine relays_bind (plain_value _ _) fun _ => relays_bind (plain_value _ _) fun _ => ?_
    exact relays_normal (plain_doing _)
  | _ => exact relays_normal (plain_doing _)

theorem augment_relays (target : Node) (op : Json) (node : Node) (s : Nat) :
    Relays set fuel (augmentScript set target op node s) := by
  cases target with
  | identifier =>
    refine relays_bind (plain_value _ _) fun _ => relays_bind (plain_value _ _) fun _ => ?_
    exact relays_bind (plain_doing _) fun _ => relays_normal (plain_doing _)
  | _ =>
    refine relays_bind (plain_part _ _ _ _) fun _ => relays_bind (plain_part _ _ _ _) fun _ => ?_
    refine relays_bind (plain_doing _) fun _ => relays_bind (plain_value _ _) fun _ => ?_
    exact relays_bind (plain_doing _) fun _ => relays_normal (plain_doing _)

theorem statement_relays {node : Node} (hn : ¬ (Work.execute node s).IsReturn) :
    Relays set fuel (statementScript set node s) := by
  cases node with
  | exprStmt => exact relays_normal (plain_value _ _)
  | assign => exact relays_bind (plain_value _ _) fun v => assign_relays _ v s
  | augAssign => exact augment_relays _ _ _ s
  | ifStmt => exact relays_perform _
  | whileStmt => exact relays_perform _
  | forStmt =>
    refine relays_bind (plain_value _ _) fun v => relays_bind (plain_doing _) fun items => ?_
    exact visits_relays _ _ _ s items
  | functionDef =>
    refine relays_bind (plain_doing _) fun f => relays_bind (plain_doing _) fun _ => ?_
    exact relays_normal (plain_doing _)
  | returnStmt => exact absurd trivial hn
  | breakStmt => exact relays_pure nofun
  | continueStmt => exact relays_pure nofun
  | passStmt => exact relays_pure nofun
  | delete =>
    refine relays_bind (plain_part _ _ _ _) fun _ => relays_bind (plain_part _ _ _ _) fun _ => ?_
    exact relays_normal (plain_doing _)
  | _ => exact relays_refuse _

theorem work_relays {w : Work} (hw : ¬ w.IsReturn) : Relays set fuel (w.script set) := by
  cases w with
  | execute node s =>
    refine relays_bind (plain_doing _) fun p => relays_inNode ?_
    exact relays_bind (plain_doing _) fun _ => statement_relays hw
  | branches node bs elseBody s => exact branches_relay node bs elseBody s
  | rounds node condition body round s => exact round_relays node condition body round s

/-- A `return` executes no further statement. -/
theorem return_plain {w : Work} (hw : w.IsReturn) : Plain set fuel (w.script set) := by
  cases w with
  | execute node s =>
    cases node with
    | returnStmt p node =>
      refine plain_bind (plain_doing _) fun p => plain_inNode ?_
      refine plain_bind (plain_doing _) fun _ => ?_
      cases node with
      | hole => exact plain_pure _
      | _ => exact plain_bind (plain_value _ _) fun _ => plain_pure _
    | _ => cases hw
  | _ => cases hw

/-! ### What statements return -/

theorem isWork_iff {t : Task} : t.IsWork ↔ ∃ w, t = .work w := by
  constructor
  · intro h
    cases t with
    | work w => exact ⟨w, rfl⟩
    | _ => cases h
  · rintro ⟨w, rfl⟩
    exact trivial

theorem plain_reaches {p : Script α} {m : Moment} (hp : Plain set fuel p) (hm : m.task.IsWork) :
    ¬ Reaches set Task.IsWork fuel p st m := by
  intro h
  cases h with
  | begun hbegins =>
    obtain ⟨w, rfl⟩ := isWork_iff.mp hm
    exact hp w _ st hbegins
  | inside hinto hbegins _ =>
    obtain ⟨w, rfl⟩ := isWork_iff.mp hinto
    exact hp w _ st hbegins

theorem returns_of_play {p : Script Completion} (hp : Relays set fuel p)
    (h : p.play (Task.run set fuel) st = .ok (.returned v) st') :
    Returns set fuel p st v st' := by
  induction fuel generalizing p st with
  | zero =>
    obtain ⟨w, now, -, hrun⟩ := (hp st v st').mp h
    rw [show w.run set 0 = Task.run set 0 (.work w) from rfl, run_zero] at hrun
    cases hrun
  | succ fuel ih =>
    obtain ⟨w, now, hbegins, hrun⟩ := (hp st v st').mp h
    by_cases hw : w.IsReturn
    · cases w with
      | execute node s =>
        cases node with
        | returnStmt q node => exact ⟨q, node, s, fuel + 1, now, .begun hbegins, hrun⟩
        | _ => cases hw
      | _ => cases hw
    · have hplay : (w.script set).play (Task.run set fuel) now = .ok (.returned v) st' :=
        (congrFun (run_succ set fuel (.work w)) now).symm.trans hrun
      have hinto : Task.IsWork (.work w) := trivial
      obtain ⟨q, node, s, k, at', hreach, hreturn⟩ := ih (work_relays hw) hplay
      exact ⟨q, node, s, k, at', .inside hinto hbegins hreach, hreturn⟩

theorem play_of_reaches {p : Script Completion} {w : Work} {k : Nat} {now : State}
    (hp : Relays set fuel p) (h : Reaches set Task.IsWork fuel p st ⟨.work w, k, now⟩)
    (hrun : w.run set k now = .ok (.returned v) st') :
    p.play (Task.run set fuel) st = .ok (.returned v) st' := by
  induction fuel generalizing p st with
  | zero =>
    cases h with
    | begun hbegins => exact (hp st v st').mpr ⟨w, now, hbegins, hrun⟩
  | succ fuel ih =>
    cases h with
    | begun hbegins => exact (hp st v st').mpr ⟨w, now, hbegins, hrun⟩
    | @inside _ _ _ _ first t _ hinto hbegins hreach =>
      obtain ⟨w', rfl⟩ := isWork_iff.mp hinto
      by_cases hw : w'.IsReturn
      · exact absurd hreach (plain_reaches (return_plain hw) trivial)
      · refine (hp st v st').mpr ⟨w', first, hbegins, ?_⟩
        exact (congrFun (run_succ set fuel (.work w')) first).trans (ih (work_relays hw) hreach)

/-- Statements return a value exactly if a `return` among them gave it, and end there. -/
theorem play_returns {p : Script Completion} (hp : Relays set fuel p) :
    p.play (Task.run set fuel) st = .ok (.returned v) st' ↔ Returns set fuel p st v st' := by
  constructor
  · exact returns_of_play hp
  · rintro ⟨q, node, s, k, now, hreach, hreturn⟩
    exact play_of_reaches hp hreach hreturn

end Evaluator

end Offside
