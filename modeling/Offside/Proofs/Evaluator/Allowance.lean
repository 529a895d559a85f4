import Offside.Proofs.Evaluator.Script

/-!
Two runs of one script. If the tasks of one run end as those of the other, unless they stop for a
reason that is excused, then so do the scripts. With the lack of fuel for the excuse, more fuel
changes nothing else, and a run that ends does so with every sufficient allowance.
-/

namespace Offside.Evaluator

abbrev Outcome (α : Type) := EStateM.Result Stop State α

variable {α β : Type} {excused : Stop → Prop} {r r' : Outcome α} {st st' : State}

/-- The same outcome, unless the first run stopped for an excused reason. -/
def Follows (excused : Stop → Prop) (r r' : Outcome α) : Prop :=
  r' = r ∨ ∃ e st, r = .error e st ∧ excused e

theorem follows_refl (r : Outcome α) : Follows excused r r := .inl rfl

theorem bind_apply (x : Run α) (f : α → Run β) (st : State) :
    (x >>= f) st = match x st with
      | .ok a st' => f a st'
      | .error e st' => .error e st' := by
  change EStateM.bind x f st = _
  unfold EStateM.bind
  cases x st <;> rfl

theorem follows_bind {x y : Run α} {f g : α → Run β} (h : Follows excused (x st) (y st))
    (hf : ∀ a st', Follows excused (f a st') (g a st')) :
    Follows excused ((x >>= f) st) ((y >>= g) st) := by
  rw [bind_apply, bind_apply]
  rcases h with h | ⟨e, st', h, he⟩
  · rw [h]
    cases x st with
    | ok a st' => exact hf a st'
    | error e st' => exact follows_refl _
  · rw [h]
    exact .inr ⟨e, st', rfl, he⟩

/-- An excuse that the place of an error has no part in. -/
def Placeless (excused : Stop → Prop) : Prop :=
  ∀ e p, excused (.error e) → excused (.error (e.locate p))

theorem follows_located {x y : Run α} (hp : Placeless excused) (p : Place)
    (h : Follows excused (x st) (y st)) :
    Follows excused (Run.located p x st) (Run.located p y st) := by
  unfold Run.located
  rcases h with h | ⟨e, st', h, he⟩
  · rw [h]
    exact follows_refl _
  · rw [h]
    cases e with
    | error e => exact .inr ⟨_, _, rfl, hp e p he⟩
    | _ => exact .inr ⟨_, _, rfl, he⟩

theorem follows_deeper {x y : Run α} (h : ∀ st, Follows excused (x st) (y st)) :
    Follows excused (Run.deeper x st) (Run.deeper y st) := by
  unfold Run.deeper
  rcases h st.enterCall with h | ⟨e, st', h, he⟩
  · rw [h]
    exact follows_refl _
  · rw [h]
    exact .inr ⟨_, _, rfl, he⟩

theorem play_follows {R R' : (t : Task) → Run t.Result} (hp : Placeless excused)
    (h : ∀ t st, Follows excused (R t st) (R' t st)) (p : Script α) (st : State) :
    Follows excused (p.play R st) (p.play R' st) := by
  induction p generalizing st with
  | done a => exact follows_refl _
  | act x next ih => exact follows_bind (follows_refl _) ih
  | task t next ih => exact follows_bind (h t st) ih
  | located p inner next ih ihnext => exact follows_bind (follows_located hp p (ih st)) ihnext
  | deeper inner next ih ihnext => exact follows_bind (follows_deeper ih) ihnext

/-- Runs with other settings follow if the scripts do, one unit of fuel at a time. -/
theorem run_follows {set set' : Settings} (hs : excused .starved)
    (hstep : ∀ R R' : (t : Task) → Run t.Result, (∀ t st, Follows excused (R t st) (R' t st)) →
      ∀ (t : Task) st, Follows excused ((t.script set).play R st) ((t.script set').play R' st))
    {m n : Nat} (hmn : m ≤ n) (t : Task) (st : State) :
    Follows excused (t.run set m st) (t.run set' n st) := by
  induction m generalizing n t st with
  | zero =>
    rw [run_zero]
    exact .inr ⟨_, _, rfl, hs⟩
  | succ m ih =>
    obtain ⟨n, rfl⟩ : ∃ k, n = k + 1 := ⟨n - 1, by omega⟩
    rw [run_succ, run_succ]
    exact hstep _ _ (fun t st => ih (by omega) t st) t st

/-! ### More fuel -/

variable {set : Settings}

def Starved (e : Stop) : Prop := e = .starved

theorem starved_placeless : Placeless Starved := fun _ _ h => nomatch h

/-- The outcome of a run that was not cut short. -/
def Fed (r : Outcome α) : Prop := ∀ st, r ≠ .error .starved st

/-- With more fuel a run that was not cut short goes the same way. -/
theorem run_mono {m n : Nat} (hmn : m ≤ n) (t : Task) (st : State) (hfed : Fed (t.run set m st)) :
    t.run set n st = t.run set m st := by
  have hfollows : Follows Starved (t.run set m st) (t.run set n st) :=
    run_follows (show Starved .starved from rfl)
      (fun _ _ h t => play_follows starved_placeless h (t.script set)) hmn t st
  rcases hfollows with h | ⟨e, st', h, rfl⟩
  · exact h
  · exact absurd h (hfed st')

/-- Every sufficient allowance gives the outcome, which is not the lack of it. -/
def Ends (act : Nat → Run α) (st : State) (r : Outcome α) : Prop :=
  Fed r ∧ ∃ n, ∀ fuel, n ≤ fuel → act fuel st = r

/-- What depends on the outcome of a run only ends when that run does. -/
theorem ends_through {x : Nat → Run α} {y : Nat → Run β} (F : Outcome α → Outcome β)
    (hF : ∀ r, Fed r → Fed (F r)) (hy : ∀ fuel, y fuel st' = F (x fuel st)) (h : Ends x st r) :
    Ends y st' (F r) := by
  obtain ⟨hr, n, hn⟩ := h
  exact ⟨hF r hr, n, fun fuel hf => (hy fuel).trans (congrArg F (hn fuel hf))⟩

/-- A task ends with an outcome. -/
def Task.Ends (set : Settings) (t : Task) : State → Outcome t.Result → Prop :=
  Evaluator.Ends fun fuel => t.run set fuel

/-- A script ends with an outcome. -/
def Script.Ends (set : Settings) (p : Script α) : State → Outcome α → Prop :=
  Evaluator.Ends fun fuel => p.play (Task.run set fuel)

/-- A task ends as its script does. -/
theorem ends_script {t : Task} {r : Outcome t.Result} :
    t.Ends set st r ↔ (t.script set).Ends set st r := by
  constructor
  · rintro ⟨hr, n, hn⟩
    exact ⟨hr, n, fun fuel hf =>
      (congrFun (run_succ set fuel t) st).symm.trans (hn (fuel + 1) (by omega))⟩
  · rintro ⟨hr, n, hn⟩
    refine ⟨hr, n + 1, fun fuel hf => ?_⟩
    obtain ⟨k, rfl⟩ : ∃ k, fuel = k + 1 := ⟨fuel - 1, by omega⟩
    exact (congrFun (run_succ set k t) st).trans (hn k (by omega))

end Offside.Evaluator
