import Mathlib
import Offside.Proofs.Evaluator.Call
import Offside.Proofs.Evaluator.Conduct
import Offside.Proofs.Interpreter

/-!
The states that a run passes through, and the calls under way in each. The depth counts those calls:
a call adds one for its body and takes it away again however the body ends, so that the limit bounds
their number, and the call that would be one too many does nothing but fail.
-/

namespace Offside.Evaluator

/-- Played from the state `st`, a script passes through a state while so many of its calls are under
way. What it does in a task is counted too, and so is the state in which it ends. -/
inductive Passes (set : Settings) : {α : Type} → Nat → Script α → State → Nat → State → Prop where
  | here {α : Type} {fuel : Nat} {p : Script α} {st : State} : Passes set fuel p st 0 st
  | ended {α : Type} {fuel : Nat} {p : Script α} {st : State} :
      Passes set fuel p st 0 (stateAfter (p.play (Task.run set fuel) st))
  | act {α β : Type} {fuel calls : Nat} {x : Run β} {next : β → Script α} {b : β}
      {st st' now : State} : x st = .ok b st' → Passes set fuel (next b) st' calls now →
      Passes set fuel (.act x next) st calls now
  | inTask {α : Type} {fuel calls : Nat} {t : Task} {next : t.Result → Script α}
      {st now : State} : Passes set fuel (t.script set) st calls now →
      Passes set (fuel + 1) (.task t next) st calls now
  | afterTask {α : Type} {fuel calls : Nat} {t : Task} {next : t.Result → Script α}
      {b : t.Result} {st st' now : State} : t.run set fuel st = .ok b st' →
      Passes set fuel (next b) st' calls now → Passes set fuel (.task t next) st calls now
  | inNode {α β : Type} {fuel calls : Nat} {p : Place} {inner : Script β} {next : β → Script α}
      {st now : State} : Passes set fuel inner st calls now →
      Passes set fuel (.located p inner next) st calls now
  | afterNode {α β : Type} {fuel calls : Nat} {p : Place} {inner : Script β}
      {next : β → Script α} {b : β} {st st' now : State} :
      Run.located p (inner.play (Task.run set fuel)) st = .ok b st' →
      Passes set fuel (next b) st' calls now → Passes set fuel (.located p inner next) st calls now
  | inCall {α β : Type} {fuel calls : Nat} {inner : Script β} {next : β → Script α}
      {st now : State} : Passes set fuel inner st.enterCall calls now →
      Passes set fuel (.deeper inner next) st (calls + 1) now
  | afterCall {α β : Type} {fuel calls : Nat} {inner : Script β} {next : β → Script α} {b : β}
      {st st' now : State} : Run.deeper (inner.play (Task.run set fuel)) st = .ok b st' →
      Passes set fuel (next b) st' calls now → Passes set fuel (.deeper inner next) st calls now

variable {set : Settings} {F : Frame} {spots : Set Place} {d fuel calls : Nat} {α : Type}
  {p : Script α} {st now : State}

end Offside.Evaluator

/-!
Sessions. One interpreter runs programs one after another, and its host may change the scopes and
the world in between. All that a run leaves behind is in the scopes, the functions and the world:
the depth goes back, however the run ends, so that the next one goes on like the first of a new
interpreter.
-/

namespace Offside.Interpreter

open Evaluator

variable {set : Settings} {st st' : State}

/-! ### What is never undone -/

/-- Binds a builtin where its name is free. -/
def install (root : Nat) (scopes : Scopes) (name : String) : Scopes :=
  if (scopes.scope root).binds name then scopes else scopes.define root name (.native name)

section

variable {root : Nat} {scopes : Scopes} {names : List String} {name : String}
  {registry : Registry}

theorem extends_install (root : Nat) (scopes : Scopes) (name : String) :
    scopes.Extends 0 (install root scopes name) := by
  unfold install
  split
  · exact Scopes.extends_refl _ _
  · exact Scopes.extends_define (Scopes.extends_refl _ _) (.inl (Nat.zero_le _))

theorem install_binds (hroot : root < scopes.table.size) :
    ((install root scopes name).scope root).binds name = true := by
  unfold install
  by_cases hb : (scopes.scope root).binds name = true
  · rwa [if_pos hb]
  · rw [if_neg hb, Scopes.scope_define_self hroot]
    exact Scope.binds_define _ (by simp [Json.same, Json.sameAtom, Json.countable])

theorem extends_installAll (root : Nat) (scopes : Scopes) (names : List String) :
    scopes.Extends 0 (names.foldl (install root) scopes) := by
  induction names generalizing scopes with
  | nil => exact Scopes.extends_refl _ _
  | cons name names ih => exact Scopes.extends_trans (extends_install root scopes name) (ih _)

/-- A name that is installed stays so while others are. -/
theorem installAll_binds (hroot : root < scopes.table.size) (hname : name ∈ names) :
    ((names.foldl (install root) scopes).scope root).binds name = true := by
  induction names generalizing scopes with
  | nil => cases hname
  | cons first names ih =>
    have hsize : root < (install root scopes first).table.size :=
      hroot.trans_le (extends_install root scopes first).size
    rcases List.mem_cons.mp hname with rfl | hname
    · have hrest := extends_installAll root (install root scopes name) names
      exact Scope.binds_mono (hrest.names root hsize) (install_binds hroot)
    · exact ih hsize hname

theorem installAll_self (h : ∀ name ∈ names, (scopes.scope root).binds (name : String) = true) :
    names.foldl (install root) scopes = scopes := by
  induction names with
  | nil => rfl
  | cons name names ih =>
    obtain ⟨hname, hnames⟩ := List.forall_mem_cons.mp h
    rw [List.foldl_cons, install, if_pos hname]
    exact ih hnames

theorem extends_installBuiltins (registry : Registry) (s : Nat) (scopes : Scopes) :
    scopes.Extends 0 (installBuiltins registry s scopes) :=
  extends_installAll _ _ _

end

/-! ### Runs -/

theorem execute_kept (set : Settings) (fuel : Nat) (program : Node) (s : Nat) (st : State) :
    (Frame.around st.scopes 0 (Nat.zero_le _)).Kept st.depth
      (stateAfter (execute set fuel program s st)) := by
  have hst := Frame.around_kept st (Nat.zero_le _)
  unfold execute
  cases statementsOf program with
  | error f => exact hst
  | ok body =>
    have hblock : Framed set (Frame.around st.scopes 0 (Nat.zero_le _)) ∅ st.depth
        (Script.block s body) := block_framed (Nat.zero_le s) fun _ _ _ _ => trivial
    have hkeeps := script_preserved fuel (Set.empty_subset _) hblock
    rw [Script.play_block] at hkeeps
    have hrest : Keeps (Frame.around st.scopes 0 (Nat.zero_le _)) _ st.depth Always
        (runBlock (Evaluator.execute set fuel · s) body >>= fun _ => pure ()) :=
      keeps_bind hkeeps fun _ _ => keeps_pure trivial
    exact preserved_kept (hrest st hst)

theorem closing_after (x : Run Unit) (st : State) :
    stateAfter (closing x st) = closeTrace (stateAfter (x st)) := by
  unfold closing
  cases x st <;> rfl

/-- What an interpreter is like when it runs nothing. -/
structure Idle (set : Settings) (st : State) : Prop where
  depth : st.depth = 0
  trace : set.traceLevel = 0 → st.trace = none
  scopes : (newScopes set.registry).Extends 0 st.scopes

/-- The state of a new interpreter that is given the scopes and the functions of another. -/
def taken (new st : State) : State := { new with scopes := st.scopes, closures := st.closures }

end Offside.Interpreter
