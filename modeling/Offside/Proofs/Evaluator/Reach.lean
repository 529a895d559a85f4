import Offside.Proofs.Evaluator.Tidy

/-!
What a run reaches. A script begins its tasks one after another, each in the state that was left
before it, and a task that is begun plays a script of its own. In a run of a sound tree every task
is begun fit, in a state that keeps the invariant.
-/

namespace Offside.Evaluator

/-- A task about to be done, with some fuel. -/
structure Moment where
  task : Task
  fuel : Nat
  state : State

namespace Script

/-- Played from a state, a script begins the task `t` in the state `now`. -/
def Begins (set : Settings) (fuel : Nat) (t : Task) (now : State) {α : Type} :
    Script α → State → Prop
  | done _, _ => False
  | act x next, st => ∃ b st', x st = .ok b st' ∧ (next b).Begins set fuel t now st'
  | task t' next, st =>
    (t' = t ∧ st = now) ∨
      ∃ b st', t'.run set fuel st = .ok b st' ∧ (next b).Begins set fuel t now st'
  | located p inner next, st =>
    inner.Begins set fuel t now st ∨
      ∃ b st', Run.located p (inner.play (Task.run set fuel)) st = .ok b st' ∧
        (next b).Begins set fuel t now st'
  | deeper inner next, st =>
    inner.Begins set fuel t now st.enterCall ∨
      ∃ b st', Run.deeper (inner.play (Task.run set fuel)) st = .ok b st' ∧
        (next b).Begins set fuel t now st'

end Script

/-- What is begun by a script, or inside what it begins, going into tasks of the sort `into`. -/
inductive Reaches (set : Settings) (into : Task → Prop) :
    {α : Type} → Nat → Script α → State → Moment → Prop where
  | begun {α : Type} {fuel : Nat} {p : Script α} {st now : State} {t : Task} :
      p.Begins set fuel t now st → Reaches set into fuel p st ⟨t, fuel, now⟩
  | inside {α : Type} {fuel : Nat} {p : Script α} {st now : State} {t : Task} {m : Moment} :
      into t → p.Begins set (fuel + 1) t now st →
      Reaches set into fuel (t.script set) now m → Reaches set into (fuel + 1) p st m

variable {set : Settings} {whiles : Bool} {d m fuel : Nat} {α β : Type} {P : α → Prop}
  {p : Script α} {t : Task} {st now : State}

theorem bind_ok {x : Run β} {f : β → Run α} {a : α} {st' : State} :
    (x >>= f) st = .ok a st' ↔ ∃ b st₁, x st = .ok b st₁ ∧ f b st₁ = .ok a st' := by
  rw [bind_apply]
  constructor
  · intro h
    cases hx : x st with
    | ok b st₁ =>
      rw [hx] at h
      exact ⟨b, st₁, rfl, h⟩
    | error e st₁ =>
      rw [hx] at h
      cases h
  · rintro ⟨b, st₁, hx, hf⟩
    rw [hx]
    exact hf

theorem begins_after {γ : Type} {x : Run γ} {q : γ → Script β} {f : β → Script α}
    (h : ∀ c st, ((q c).andThen f).Begins set fuel t now st ↔
      (q c).Begins set fuel t now st ∨
        ∃ b st', (q c).play (Task.run set fuel) st = .ok b st' ∧ (f b).Begins set fuel t now st') :
    (∃ c st', x st = .ok c st' ∧ ((q c).andThen f).Begins set fuel t now st') ↔
      (∃ c st', x st = .ok c st' ∧ (q c).Begins set fuel t now st') ∨
        ∃ b st', (x >>= fun c => (q c).play (Task.run set fuel)) st = .ok b st' ∧
          (f b).Begins set fuel t now st' := by
  simp only [h, bind_ok]
  constructor
  · rintro ⟨c, st₁, hx, h | ⟨b, st₂, hq, h⟩⟩
    · exact .inl ⟨c, st₁, hx, h⟩
    · exact .inr ⟨b, st₂, ⟨c, st₁, hx, hq⟩, h⟩
  · rintro (⟨c, st₁, hx, h⟩ | ⟨b, st₂, ⟨c, st₁, hx, hq⟩, h⟩)
    · exact ⟨c, st₁, hx, .inl h⟩
    · exact ⟨c, st₁, hx, .inr ⟨b, st₂, hq, h⟩⟩

/-- One script after another begins what either begins. -/
theorem begins_bind {p : Script β} {f : β → Script α} :
    (p >>= f).Begins set fuel t now st ↔
      p.Begins set fuel t now st ∨
        ∃ b st', p.play (Task.run set fuel) st = .ok b st' ∧ (f b).Begins set fuel t now st' := by
  change (p.andThen f).Begins set fuel t now st ↔ _
  induction p generalizing st with
  | done a =>
    constructor
    · exact fun h => .inr ⟨a, st, rfl, h⟩
    · rintro (h | ⟨_, _, ⟨⟩, h⟩)
      · cases h
      · exact h
  | act x next ih => exact begins_after fun c st => ih c
  | task t' next ih => exact (or_congr_right (begins_after fun c st => ih c)).trans or_assoc.symm
  | located q inner next _ ih =>
    exact (or_congr_right (begins_after fun c st => ih c)).trans or_assoc.symm
  | deeper inner next _ ih =>
    exact (or_congr_right (begins_after fun c st => ih c)).trans or_assoc.symm

/-! ### The invariant at every moment -/

/-- A tidy script begins its tasks fit. -/
theorem begins_fit (hp : Tidy set whiles d m P p) (hst : At whiles d st)
    (h : p.Begins set fuel t now st) :
    ∃ context e, t.Fit whiles context ∧ At whiles e now := by
  induction hp generalizing st with
  | done => cases h
  | act hx _ ih =>
    obtain ⟨b, st', hok, h⟩ := h
    obtain ⟨hb, hst'⟩ := meets_ok (hx st hst).1 hok
    exact ih b hb hst' h
  | task ht _ _ ih =>
    rcases h with ⟨rfl, rfl⟩ | ⟨b, st', hok, h⟩
    · exact ⟨_, _, ht, hst⟩
    · obtain ⟨hb, hst'⟩ := meets_ok (run_meets fuel ht hst) hok
      exact ih b hb hst' h
  | located hi _ ihinner ih =>
    rcases h with h | ⟨b, st', hok, h⟩
    · exact ihinner hst h
    · obtain ⟨hb, hst'⟩ := meets_ok (meets_located _ (script_meets fuel hi hst)) hok
      exact ih b hb hst' h
  | deeper _ hi _ ihinner ih =>
    rcases h with h | ⟨b, st', hok, h⟩
    · exact ihinner hst.enterCall h
    · obtain ⟨hb, hst'⟩ :=
        meets_ok (meets_deeper (fun st hst => script_meets fuel hi hst) hst) hok
      exact ih b hb hst' h

/-- So does everything that it reaches. -/
theorem reaches_fit {into : Task → Prop} {mo : Moment} (hp : Tidy set whiles d m P p)
    (hst : At whiles d st) (h : Reaches set into fuel p st mo) :
    ∃ context e, mo.task.Fit whiles context ∧ At whiles e mo.state := by
  induction h generalizing d m with
  | begun hb => exact begins_fit hp hst hb
  | inside _ hb _ ih =>
    obtain ⟨context, e, ht, hnow⟩ := begins_fit hp hst hb
    exact ih (script_tidy ht) hnow

end Offside.Evaluator
