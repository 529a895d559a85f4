import Offside.Proofs.Evaluator.Signal

/-!
Calls of functions. A call that gets past its checks executes the body of the function in a scope of
its own, one level deeper, and its value is what the first `return` of that body gives.
-/

namespace Offside

/-- The function that a value with this number calls. -/
def State.closure (st : State) (id : Nat) : Closure := st.closures[id]?.getD default

theorem State.Safe.closure_good {whiles : Bool} {st : State} (h : st.Safe whiles) (id : Nat) :
    (st.closure id).Good whiles := by
  unfold State.closure
  cases hc : st.closures[id]? with
  | none => exact Evaluator.default_good
  | some c => exact h c (Array.mem_of_getElem? hc)

namespace Evaluator

open Script

variable {set : Settings} {whiles : Bool} {d fuel id inner : Nat} {name : String}
  {args : List Value} {st st₁ st' : State} {v : Value}

/-- A call gets past its checks, and begins the body of the function in the scope `inner`. -/
structure Entered (set : Settings) (id : Nat) (name : String) (args : List Value) (st : State)
    (inner : Nat) (st₁ : State) : Prop where
  arity : args.length = (st.closure id).params.length
  depth : st.depth < set.maxDepth
  entered : ∃ st', enter set name (st.closure id) args st = .ok inner st' ∧ st₁ = st'.enterCall

theorem checkArity_ok {c : Closure} :
    checkArity name c args st = .ok () st' ↔ args.length = c.params.length ∧ st' = st := by
  unfold checkArity
  split
  · next h => exact ⟨nofun, fun h' => absurd h'.1 h⟩
  · next h =>
    constructor
    · rintro ⟨⟩
      exact ⟨not_not.mp h, rfl⟩
    · rintro ⟨-, rfl⟩
      rfl

theorem checkDepth_ok {limit : Int} :
    checkDepth limit name st = .ok () st' ↔ st.depth < limit ∧ st' = st := by
  unfold checkDepth
  rw [get_bind]
  split
  · next h => exact ⟨nofun, fun h' => by omega⟩
  · next h =>
    constructor
    · rintro ⟨⟩
      exact ⟨not_le.mp h, rfl⟩
    · rintro ⟨-, rfl⟩
      rfl

theorem deeper_ok {α : Type} {x : Run α} {a : α} :
    Run.deeper x st = .ok a st' ↔ ∃ st₁, x st.enterCall = .ok a st₁ ∧ st' = st₁.leaveCall := by
  unfold Run.deeper
  cases x st.enterCall with
  | ok b st₁ =>
    constructor
    · rintro ⟨⟩
      exact ⟨st₁, rfl, rfl⟩
    · rintro ⟨_, ⟨⟩, rfl⟩
      rfl
  | error e st₁ => exact ⟨nofun, nofun⟩

/-- A call has a value exactly if it gets to its body and the body completes. -/
theorem call_ok : callValue set (fuel + 1) (.function id name) args st = .ok v st' ↔
    ∃ inner st₁ c st₂, Entered set id name args st inner st₁ ∧
      (block inner (st.closure id).body).play (Task.run set fuel) st₁ = .ok c st₂ ∧
      v = c.value ∧ st' = st₂.leaveCall := by
  rw [call_succ]
  change (callScript set (.function id name) args).play (Task.run set fuel) st = _ ↔ _
  have hclosure : closureOf id st = .ok (st.closure id) st := rfl
  simp only [callScript, play_bind, play_doing, play_inCall, play_pure, bind_ok, hclosure]
  constructor
  · rintro ⟨_, _, ⟨⟩, ⟨⟩, _, harity, ⟨⟩, _, hdepth, inner, st₁, henter, c, _, hdeeper, ⟨⟩⟩
    obtain ⟨harity, rfl⟩ := checkArity_ok.mp harity
    obtain ⟨hdepth, rfl⟩ := checkDepth_ok.mp hdepth
    obtain ⟨st₂, hbody, rfl⟩ := deeper_ok.mp hdeeper
    exact ⟨inner, _, c, st₂, ⟨harity, hdepth, st₁, henter, rfl⟩, hbody, rfl, rfl⟩
  · rintro ⟨inner, _, c, st₂, ⟨harity, hdepth, st₁, henter, rfl⟩, hbody, rfl, rfl⟩
    refine ⟨_, _, rfl, (), st, checkArity_ok.mpr ⟨harity, rfl⟩, (), st,
      checkDepth_ok.mpr ⟨hdepth, rfl⟩, inner, st₁, henter, c, _, ?_, rfl⟩
    exact deeper_ok.mpr ⟨st₂, hbody, rfl⟩

theorem entered_at (hst : At whiles d st) (h : Entered set id name args st inner st₁) :
    At whiles (d + 1) st₁ := by
  obtain ⟨st', henter, rfl⟩ := h.entered
  obtain ⟨-, hst'⟩ := meets_ok (enter_quiet set name (st.closure id) args st hst).1 henter
  exact hst'.enterCall

/-- How a call of a function may go: its body passes no `break` or `continue` on, a `return`
executed in the body itself ends the call with its value, and without one the value is None. -/
structure CallContained (set : Settings) (fuel id : Nat) (name : String) (args : List Value)
    (st : State) : Prop where
  body : ∀ {inner st₁ c st₂}, Entered set id name args st inner st₁ →
    runBlock (execute set fuel · inner) (st.closure id).body st₁ = .ok c st₂ →
      c = .normal ∨ ∃ v, c = .returned v
  returned : ∀ {inner st₁ v st₂}, Entered set id name args st inner st₁ →
    Returns set fuel (block inner (st.closure id).body) st₁ v st₂ →
      callValue set (fuel + 1) (.function id name) args st = .ok v st₂.leaveCall
  value : ∀ {v st'}, callValue set (fuel + 1) (.function id name) args st = .ok v st' →
    ∃ inner st₁, Entered set id name args st inner st₁ ∧
      ((∃ st₂, Returns set fuel (block inner (st.closure id).body) st₁ v st₂) ∨
        v = .none ∧ ∀ w st₂, ¬ Returns set fuel (block inner (st.closure id).body) st₁ w st₂)

/-- The body of a function completes normally or with a value. -/
theorem body_completes (hst : At whiles d st) (h : Entered set id name args st inner st₁)
    {c : Completion} {st₂ : State}
    (hbody : (block inner (st.closure id).body).play (Task.run set fuel) st₁ = .ok c st₂) :
    c = .normal ∨ ∃ v, c = .returned v := by
  have hgood : Runnable whiles ⟨false, true⟩ (st.closure id).body := hst.safe.closure_good id
  have hmeets : Meets whiles (d + 1) (Completion.Allowed ⟨false, true⟩)
      ((block inner (st.closure id).body).play (Task.run set fuel) st₁) :=
    script_meets fuel (block_tidy hgood fun _ => Nat.le_refl _) (entered_at hst h)
  exact allowed_outside_loops (meets_ok hmeets hbody).1

theorem call_contained (hst : At whiles d st) (fuel id : Nat) (name : String)
    (args : List Value) : CallContained set fuel id name args st where
  body := by
    intro inner st₁ c st₂ hentered hbody
    exact body_completes hst hentered ((congrFun (play_block inner _) st₁).trans hbody)
  returned := by
    intro inner st₁ v st₂ hentered hreturns
    have hbody := (play_returns (block_relays _ _)).mpr hreturns
    exact call_ok.mpr ⟨inner, st₁, .returned v, st₂, hentered, hbody, rfl, rfl⟩
  value := by
    intro v st' hcall
    obtain ⟨inner, st₁, c, st₂, hentered, hbody, rfl, rfl⟩ := call_ok.mp hcall
    refine ⟨inner, st₁, hentered, ?_⟩
    rcases body_completes hst hentered hbody with rfl | ⟨v, rfl⟩
    · refine .inr ⟨rfl, fun w st₃ hreturns => ?_⟩
      have hreturned := (play_returns (block_relays _ _)).mpr hreturns
      rw [hbody] at hreturned
      cases hreturned
    · exact .inl ⟨st₂, (play_returns (block_relays _ _)).mp hbody⟩

end Evaluator

end Offside
