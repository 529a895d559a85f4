import Mathlib
import Offside.Proofs.Evaluator.Allowance
import Offside.Proofs.Interpreter

/-!
Runs under a higher limit for nested calls. The limit is looked at where a call begins and nowhere
else, so that a run that does not meet it goes on in the same way under every higher one.
-/

namespace Offside

def Settings.withLimit (set : Settings) (limit : Int) : Settings := { set with maxDepth := limit }

namespace Evaluator

open Run

/-- The error of a call beyond the limit. -/
def TooDeep (e : Stop) : Prop :=
  ∃ err, e = .error err ∧ err.cause.kind = "RecursionLimitExceeded"

/-- What a run under a higher limit may do otherwise. -/
def CutShort (e : Stop) : Prop := Starved e ∨ TooDeep e

theorem cutShort_placeless : Placeless CutShort := by
  rintro e p (h | ⟨_, h, hk⟩)
  · cases h
  · cases h
    refine .inr ⟨_, rfl, ?_⟩
    unfold RuntimeError.locate
    split <;> exact hk

variable {set : Settings} {limit : Int} {st : State}

theorem evaluate_limit (node : Node) (s : Nat) :
    (Task.evaluate node s).script (set.withLimit limit) = (Task.evaluate node s).script set := by
  cases node <;> rfl

theorem visits_limit (node : Node) (name : Json) (body : List Node) (s : Nat)
    (items : List Value) :
    visits (set.withLimit limit) node name body s items = visits set node name body s items := by
  induction items with
  | nil => rfl
  | cons item rest ih =>
    rw [visits, visits, ih]
    rfl

theorem statementScript_limit (node : Node) (s : Nat) :
    statementScript (set.withLimit limit) node s = statementScript set node s := by
  cases node
  case forStmt p name iterable body =>
    simp only [statementScript, visits_limit]
  all_goals rfl

theorem work_limit (w : Work) : w.script (set.withLimit limit) = w.script set := by
  cases w with
  | execute node s =>
    simp only [Work.script, statementScript_limit]
    rfl
  | branches node bs elseBody s =>
    rcases bs with _ | ⟨⟨_, _⟩, _⟩
    · cases elseBody <;> rfl
    · rfl
  | rounds => rfl

theorem checkDepth_limit (h : set.maxDepth ≤ limit) (name : String) (st : State) :
    Follows CutShort (checkDepth set.maxDepth name st) (checkDepth limit name st) := by
  unfold checkDepth
  rw [get_bind, get_bind]
  by_cases hd : set.maxDepth ≤ st.depth
  · rw [if_pos hd]
    exact .inr ⟨_, _, rfl, .inr ⟨_, rfl, rfl⟩⟩
  · rw [if_neg hd, if_neg (by omega)]
    exact follows_refl _

theorem call_limit (h : set.maxDepth ≤ limit) {R R' : (t : Task) → Run t.Result}
    (hR : ∀ t st, Follows CutShort (R t st) (R' t st)) (f : Value) (args : List Value)
    (st : State) :
    Follows CutShort ((callScript set f args).play R st)
      ((callScript (set.withLimit limit) f args).play R' st) := by
  cases f
  case function id name =>
    simp only [callScript, Script.play_bind, Script.play_doing]
    refine follows_bind (follows_refl _) fun closure st => ?_
    refine follows_bind (follows_refl _) fun _ st => ?_
    refine follows_bind (checkDepth_limit h name st) fun _ st => ?_
    refine follows_bind (follows_refl _) fun inner st => ?_
    exact follows_bind (play_follows cutShort_placeless hR _ st) fun _ _ => follows_refl _
  all_goals exact follows_refl _

/-- A task under a higher limit does what it does under the lower one, unless that cuts it
short. -/
theorem run_limit (h : set.maxDepth ≤ limit) {m n : Nat} (hmn : m ≤ n) (t : Task) (st : State) :
    Follows CutShort (t.run set m st) (t.run (set.withLimit limit) n st) := by
  refine run_follows (.inl rfl) ?_ hmn t st
  intro R R' hR t st
  cases t with
  | call f args => exact call_limit h hR f args st
  | work w =>
    change Follows _ _ ((w.script (set.withLimit limit)).play R' st)
    rw [work_limit]
    exact play_follows cutShort_placeless hR _ st
  | evaluate node s =>
    rw [evaluate_limit]
    exact play_follows cutShort_placeless hR _ st
  | part owner name node s => cases node <;> exact play_follows cutShort_placeless hR _ st
  | test kind condition s => exact play_follows cutShort_placeless hR _ st

end Evaluator

namespace Interpreter

open Evaluator

variable {set : Settings} {limit : Int}

theorem execute_limit (h : set.maxDepth ≤ limit) {m n : Nat} (hmn : m ≤ n) (program : Node)
    (s : Nat) (st : State) :
    Follows CutShort (execute set m program s st) (execute (set.withLimit limit) n program s st) := by
  unfold execute
  cases statementsOf program with
  | error f => exact follows_refl _
  | ok body =>
    refine follows_bind ?_ fun _ _ => follows_refl _
    have hblock := play_follows cutShort_placeless (run_limit h hmn) (Script.block s body) st
    rw [Script.play_block, Script.play_block] at hblock
    exact hblock

theorem follows_closing {x y : Run Unit} {st : State} (h : Follows CutShort (x st) (y st)) :
    Follows CutShort (closing x st) (closing y st) := by
  unfold closing
  rcases h with h | ⟨e, st', h, he⟩
  · rw [h]
    exact follows_refl _
  · rw [h]
    exact .inr ⟨e, _, rfl, he⟩

/-- Raising the limit changes no run that ends within it, as long as the frames for the higher
limit can be set aside whenever those for the lower one can. -/
theorem raised_limit_agrees (h : set.maxDepth ≤ limit)
    (hframes : mostFrames < framesFor limit → mostFrames < framesFor set.maxDepth)
    {program : Node} {s fuel : Nat} {st : State} {r : Outcome Unit}
    (hr : run set fuel program s st = r) (hend : ∀ e st', r = .error e st' → ¬ CutShort e) :
    ∀ more, fuel ≤ more → run (set.withLimit limit) more program s st = r := by
  intro more hmore
  rw [run_apply] at hr ⊢
  by_cases hlimit : mostFrames < framesFor limit
  · rw [if_pos (hframes hlimit)] at hr
    rw [show (set.withLimit limit).maxDepth = limit from rfl, if_pos hlimit]
    exact hr
  · have hlower : ¬ mostFrames < framesFor set.maxDepth := by
      unfold framesFor framesPerCall at hlimit ⊢
      omega
    rw [if_neg hlower] at hr
    rw [show (set.withLimit limit).maxDepth = limit from rfl, if_neg hlimit]
    rcases follows_closing (execute_limit h hmore program s (opened set s st)) with
      hsame | ⟨e, st', he, hcut⟩
    · exact hsame.trans hr
    · exact absurd hcut (hend e st' (hr.symm.trans he))

/-- A function that returns the number 3, and a call of it. -/
def oneCall : Node :=
  let p : Place := .ofPosition .start
  .program p
    [.functionDef p "f" [] [.returnStmt p (.literal p (.integer 3) "Integer")],
      .exprStmt p (.call p (.identifier p "f") [])]

theorem one_call_agrees : ∃ st, run ⟨⟨[]⟩, 1, 0⟩ 8 oneCall ownScope bare = .ok () st ∧
    ∀ more, 8 ≤ more → run (Settings.withLimit ⟨⟨[]⟩, 1, 0⟩ 200) more oneCall ownScope bare =
      .ok () st := by
  obtain ⟨st, hst⟩ : ∃ st, run ⟨⟨[]⟩, 1, 0⟩ 8 oneCall ownScope bare = .ok () st := ⟨_, by cbv⟩
  refine ⟨st, hst, raised_limit_agrees (by decide) (by decide) hst ?_⟩
  rintro _ _ ⟨⟩

/-- Under a limit that more frames than there can be belong to, a run does not even begin. -/
theorem huge_limit_disagrees :
    ¬ ∀ (set : Settings) (limit : Int) (program : Node) (s fuel : Nat) (st : State)
      (r : Outcome Unit), set.maxDepth ≤ limit → run set fuel program s st = r →
      (∀ e st', r = .error e st' → ¬ CutShort e) →
      ∃ n, ∀ more, n ≤ more → run (set.withLimit limit) more program s st = r := by
  intro h
  let pass : Node := .program Position.start [.passStmt Position.start]
  obtain ⟨st, hst⟩ : ∃ st, run ⟨⟨[]⟩, 200, 0⟩ 8 pass ownScope bare = .ok () st := ⟨_, by cbv⟩
  obtain ⟨n, hn⟩ := h ⟨⟨[]⟩, 200, 0⟩ 100000000 pass ownScope 8 bare _ (by decide) hst
    (by rintro _ _ ⟨⟩)
  have hhuge := hn n (Nat.le_refl n)
  rw [run_apply, if_pos (by decide)] at hhuge
  cases hhuge

end Interpreter

end Offside
