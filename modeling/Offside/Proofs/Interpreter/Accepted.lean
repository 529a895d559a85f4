import Mathlib
import Offside.Proofs.Evaluator.Call
import Offside.Proofs.Evaluator.Tidy
import Offside.Proofs.Interpreter
import Offside.Proofs.Parser.Executable

/-!
Runs of accepted programs. A program that the parser accepts is lawful at every node, and an
interpreter that has only ever run such programs never blames one of them for an error. No `break`,
`continue` or `return` of such a program gets further than it should: the parser accepts them in
their loops and functions only, and every function that a run can call has such a body.
-/

namespace Offside

namespace Interpreter

open Evaluator

variable {set : Settings} {whiles : Bool} {st : State}

theorem bare_safe : bare.Safe whiles := State.safe_of_none rfl

theorem opened_at (set : Settings) (s : Nat) (h : st.Safe whiles) : At whiles st.depth (opened set s st) := by
  unfold opened
  split
  · exact ⟨h, rfl⟩
  · exact ⟨h, rfl⟩

theorem closing_meets {d : Nat} {x : Run Unit} (h : Meets whiles d Always (x st)) :
    Meets whiles d Always (closing x st) := by
  unfold closing
  cases hx : x st with
  | ok a st' =>
    obtain ⟨-, hst⟩ := meets_ok h hx
    exact ⟨trivial, hst.safe, hst.depth⟩
  | error e st' =>
    obtain ⟨hfair, hst⟩ := meets_error h hx
    exact ⟨hfair, hst.safe, hst.depth⟩

/-- The statements of a program are the block that its run executes. -/
theorem block_meets (set : Settings) (fuel s : Nat) {body : List Node}
    (hb : Runnable whiles ⟨false, false⟩ body) {d : Nat} (hst : At whiles d st) :
    Meets whiles d (Completion.Allowed ⟨false, false⟩)
      (runBlock (Evaluator.execute set fuel · s) body st) := by
  have h : Meets whiles d (Completion.Allowed ⟨false, false⟩)
      ((Script.block s body).play (Task.run set fuel) st) :=
    script_meets fuel (block_tidy hb fun _ => Nat.le_refl _) hst
  rw [Script.play_block] at h
  exact h

theorem run_meets (set : Settings) (fuel s : Nat) {p : Place} {body : List Node}
    (hb : Runnable whiles ⟨false, false⟩ body) (h : st.Safe whiles) :
    Meets whiles st.depth Always (run set fuel (.program p body) s st) := by
  rw [run_apply]
  have hst := opened_at set s h
  by_cases hframes : mostFrames < framesFor set.maxDepth
  · rw [if_pos hframes]
    exact ⟨trivial, hst⟩
  · rw [if_neg hframes]
    exact closing_meets (meets_bind (block_meets set fuel s hb hst) fun _ _ _ hst => ⟨trivial, hst⟩)

/-- A program that the parser accepts misplaces no statement and is lawful at every node. No run of
it, in an interpreter whose functions all come from accepted programs, blames the tree for an error,
and the interpreter is again such a one afterwards. -/
theorem accepted_program_lawful {ts : List Token} {program : Node}
    (h : Parser.parse ts = .ok program) :
    ∃ body, program = .program Position.start body ∧
      Reference.misplacedInAll false false body = [] ∧
      (∀ n, program.Contains n → n.Lawful) ∧
      ∀ set fuel s st, State.Safe true st →
        (∀ st', run set fuel program s st = .ok () st' → st'.Safe true) ∧
        ∀ e st', run set fuel program s st = .error e st' → e.Fair ∧ st'.Safe true := by
  obtain ⟨body, rfl, hbody⟩ := Parser.program_executable h
  refine ⟨body, rfl, ?_, fun n hn => ?_, ?_⟩
  · exact Node.misplacedInAll_nil fun n hn => Node.executable_placed (hbody n hn)
  · rcases Node.program_sound hbody hn with rfl | hsound
    · exact trivial
    · exact Node.sound_lawful hsound
  · intro set fuel s st hst
    have hrun := run_meets set fuel s (p := Position.start) hbody hst
    constructor
    · intro st' hok
      exact (meets_ok hrun hok).2.safe
    · intro e st' he
      obtain ⟨hfair, hst'⟩ := meets_error hrun he
      exact ⟨hfair, hst'.safe⟩

/-- The tokens of a function that negates, with its body on a line of its own. -/
def negationTokens : List Token :=
  [⟨.keyword, "def", ⟨1, 1⟩⟩, ⟨.identifier, "f", ⟨1, 5⟩⟩, ⟨.delimiter, "(", ⟨1, 6⟩⟩,
   ⟨.identifier, "n", ⟨1, 7⟩⟩, ⟨.delimiter, ")", ⟨1, 8⟩⟩, ⟨.delimiter, ":", ⟨1, 9⟩⟩,
   ⟨.newline, "\n", ⟨1, 10⟩⟩, ⟨.indent, "    ", ⟨2, 1⟩⟩, ⟨.keyword, "return", ⟨2, 5⟩⟩,
   ⟨.operator, "-", ⟨2, 12⟩⟩, ⟨.identifier, "n", ⟨2, 13⟩⟩, ⟨.newline, "\n", ⟨2, 14⟩⟩,
   ⟨.dedent, "", ⟨3, 1⟩⟩, ⟨.stop, "", ⟨3, 1⟩⟩]

theorem negation_lawful : ∃ program, Parser.parse negationTokens = .ok program ∧
    (∀ n, program.Contains n → n.Lawful) ∧ bare.Safe true ∧
    ∀ fuel e st', run ⟨⟨[]⟩, 200, 0⟩ fuel program ownScope bare = .error e st' → e.Fair := by
  obtain ⟨program, h⟩ : ∃ program, Parser.parse negationTokens = .ok program := ⟨_, by cbv⟩
  obtain ⟨-, -, -, hlawful, hruns⟩ := accepted_program_lawful h
  refine ⟨program, h, hlawful, bare_safe, ?_⟩
  intro fuel e st' he
  exact ((hruns ⟨⟨[]⟩, 200, 0⟩ fuel ownScope bare bare_safe).2 e st' he).1

/-- What a run of these statements reaches, once it has begun. -/
def Reached (set : Settings) (fuel : Nat) (body : List Node) (s : Nat) (st : State) (m : Moment) :
    Prop :=
  Reaches set (fun _ => True) fuel (Script.block s body) (opened set s st) m

/-- Executes all of the statements, one after another, whatever they complete with. -/
def inTurn (set : Settings) (fuel : Nat) (body : List Node) (s : Nat) : Run Unit :=
  body.forM fun node => do
    let _ ← Evaluator.execute set fuel node s
    return ()

/-- Outside of loops and functions every statement completes normally, so that none is skipped. -/
theorem block_in_turn {body : List Node} (hb : Runnable whiles ⟨false, false⟩ body) (fuel s : Nat)
    {d : Nat} (hst : At whiles d st) :
    (runBlock (Evaluator.execute set fuel · s) body >>= fun _ => pure ()) st =
      inTurn set fuel body s st := by
  induction body generalizing st with
  | nil => rfl
  | cons node rest ih =>
    obtain ⟨hnode, hrest⟩ := List.forall_mem_cons.mp hb
    have hmeets : Meets whiles d (Completion.Allowed ⟨false, false⟩)
        (Evaluator.execute set fuel node s st) :=
      Evaluator.run_meets fuel (t := .work (.execute node s)) hnode hst
    change ((Evaluator.execute set fuel node s >>= fun _ => _) >>= fun _ => pure ()) st =
      ((Evaluator.execute set fuel node s >>= fun _ => pure ()) >>= fun _ =>
        inTurn set fuel rest s) st
    rw [bind_assoc, bind_assoc, bind_apply, bind_apply]
    cases h : Evaluator.execute set fuel node s st with
    | error e st' => rfl
    | ok c st' =>
      obtain ⟨hc, hst'⟩ := meets_ok hmeets h
      obtain rfl := allowed_outside hc
      exact ih hrest hst'

theorem reached_fit {body : List Node} (hb : Runnable whiles ⟨false, false⟩ body) {fuel s : Nat}
    (hst : st.Safe whiles) {m : Moment} (h : Reached set fuel body s st m) :
    ∃ context e, m.task.Fit whiles context ∧ At whiles e m.state :=
  reaches_fit (block_tidy hb fun _ => Nat.le_refl _) (opened_at set s hst) h

/-- The statements of an accepted program complete normally, and a run executes them all in turn
until one fails. In every state that the run reaches, a loop that is executed completes normally or
with a value, and so does the body of any function that is called, whose first executed `return`
gives the value of the call. -/
theorem signals_contained {source : String} {program : Node}
    (h : parseProgram source = .ok program) (set : Settings) (fuel s : Nat)
    (hst : st.Safe true) :
    ∃ body, program = .program Position.start body ∧
      (∀ c st', runBlock (Evaluator.execute set fuel · s) body (opened set s st) = .ok c st' →
        c = .normal) ∧
      (framesFor set.maxDepth ≤ mostFrames →
        run set fuel program s st = closing (inTurn set fuel body s) (opened set s st)) ∧
      ∀ m, Reached set fuel body s st m →
        (∀ node s', m.task = .work (.execute node s') → node.IsLoop → ∀ c st',
          Evaluator.execute set m.fuel node s' m.state = .ok c st' →
            c = .normal ∨ ∃ v, c = .returned v) ∧
        ∀ id name args k, CallContained set k id name args m.state := by
  obtain ⟨body, rfl, hbody⟩ := Parser.source_executable h
  refine ⟨body, rfl, ?_, ?_, ?_⟩
  · intro c st' hc
    have hmeets := block_meets set fuel s hbody (opened_at set s hst)
    exact allowed_outside (meets_ok hmeets hc).1
  · intro hframes
    rw [run_apply, if_neg (not_lt.mpr hframes)]
    unfold closing
    rw [← block_in_turn hbody fuel s (opened_at set s hst)]
    rfl
  · intro m hm
    obtain ⟨context, e, hfit, hat⟩ := reached_fit hbody hst hm
    constructor
    · intro node s' htask hloop c st' hc
      rw [htask] at hfit
      exact loop_completes hloop hfit hat hc
    · intro id name args k
      exact call_contained hat k id name args

/-- A loop that a `break` ends in its first round. -/
def stoppedLoop : Node :=
  .forStmt (Place.ofPosition ⟨1, 1⟩) "x"
    (.listLiteral (Place.ofPosition ⟨1, 10⟩)
      [.literal (Place.ofPosition ⟨1, 11⟩) (.integer 1) "Integer"])
    [.breakStmt (Place.ofPosition ⟨2, 5⟩)]

theorem stopped_loop_contained :
    parseProgram "for x in [1]:\n    break\n" = .ok (.program Position.start [stoppedLoop]) ∧
      bare.Safe true ∧
      run ⟨⟨[]⟩, 200, 0⟩ 8 (.program Position.start [stoppedLoop]) ownScope bare =
        closing (inTurn ⟨⟨[]⟩, 200, 0⟩ 8 [stoppedLoop] ownScope) bare ∧
      ∃ c st', Evaluator.execute ⟨⟨[]⟩, 200, 0⟩ 8 stoppedLoop ownScope bare = .ok c st' ∧
        (c = .normal ∨ ∃ v, c = .returned v) := by
  have hparse : parseProgram "for x in [1]:\n    break\n" =
      .ok (.program Position.start [stoppedLoop]) := by cbv
  obtain ⟨body, hprogram, -, hrun, hreached⟩ :=
    signals_contained hparse ⟨⟨[]⟩, 200, 0⟩ 8 ownScope bare_safe
  obtain rfl := (Node.program.inj hprogram).2
  have hbegun : Reached ⟨⟨[]⟩, 200, 0⟩ 8 [stoppedLoop] ownScope bare
      ⟨.work (.execute stoppedLoop ownScope), 8, bare⟩ :=
    .begun (begins_bind.mpr (.inl (.inl ⟨rfl, rfl⟩)))
  obtain ⟨c, st', hc⟩ : ∃ c st',
      Evaluator.execute ⟨⟨[]⟩, 200, 0⟩ 8 stoppedLoop ownScope bare = .ok c st' :=
    ⟨_, _, by cbv⟩
  refine ⟨hparse, bare_safe, hrun (by decide), c, st', hc, ?_⟩
  exact (hreached _ hbegun).1 stoppedLoop ownScope rfl trivial c st' hc

end Interpreter

end Offside
