import Mathlib
import Offside.Proofs.Evaluator.Blame
import Offside.Proofs.Interpreter.Accepted
import Offside.Proofs.Parser.Placing

/-!
Places of runtime errors. A run of an accepted program that makes all of its functions itself fails
with an error that stands at a token of the source: at a spot of the innermost node that failed with
it, since nothing around that changes an error that has a place.
-/

namespace Offside.Interpreter

open Evaluator

variable {set : Settings} {T : Set Place} {fuel s : Nat} {st st' : State} {e : RuntimeError}
  {body : List Node}

/-- The frame of trees that stand at these places. -/
def standing (T : Set Place) : Scopes → Frame :=
  Frame.ofNodes (Node.Built T) fun hp hb =>
    ⟨fun _ hq => Option.some.inj hq ▸ hb.placed _ hp, trivial⟩

theorem standing_kept (T : Set Place) (h : st.closures = #[]) :
    (standing T st.scopes).Kept st.depth st := by
  refine Frame.kept_here rfl fun c hc => ?_
  rw [h] at hc
  exact absurd hc (Array.not_mem_empty _)

theorem standing_places {scopes : Scopes} {p : Place} (h : p ∈ (standing T scopes).places)
    (hknown : p.isKnown = true) : p ∈ T := by
  obtain ⟨n, hn, rfl⟩ := h
  cases hp : n.pos? with
  | none =>
    rw [Node.pos, hp] at hknown
    cases hknown
  | some q =>
    rw [Node.pos_of_pos? hp]
    exact hn.placed q hp

theorem placesOf_known {ts : List Token} {p : Place} (h : p ∈ Parser.placesOf ts) :
    p.isKnown = true := by
  obtain ⟨t, -, rfl⟩ := h
  rfl

/-- An error of a run is one of its statements. -/
theorem run_fails {p : Place} (h : run set fuel (.program p body) s st = .error (.error e) st') :
    Fails ((Script.block s body).play (Task.run set fuel)) (opened set s st) e := by
  rw [run_apply] at h
  by_cases hframes : mostFrames < framesFor set.maxDepth
  · rw [if_pos hframes] at h
    cases h
  · rw [if_neg hframes, closing] at h
    have hexecute : Fails (execute set fuel (.program p body) s) (opened set s st) e := by
      split at h
      · cases h
      · next st₁ he =>
        cases h
        exact ⟨st₁, he⟩
    rcases fails_bind.mp hexecute with h | ⟨_, _, _, h⟩
    · rwa [Script.play_block]
    · exact absurd h (not_fails_pure _)

/-- An error stands at a token, and got its place from the innermost task that failed. -/
structure ErrorLocated (set : Settings) (fuel s : Nat) (ts : List Token) (body : List Node)
    (st : State) (e : RuntimeError) : Prop where
  token : ∃ t ∈ ts, e.place = Place.ofPosition t.pos
  innermost : ∃ m, Reached set fuel body s st m ∧ Innermost set m e

theorem block_located {ts : List Token} (hbody : ∀ n ∈ body, n.Stands (Parser.placesOf ts))
    (hst : st.closures = #[])
    (h : Fails ((Script.block s body).play (Task.run set fuel)) (opened set s st) e) :
    ErrorLocated set fuel s ts body st e := by
  have hknown : e.place.isKnown = true :=
    block_error_known (fun n hn => placesOf_known (hbody n hn).pos) h
  have hopened : (opened set s st).closures = #[] := by
    unfold opened
    split <;> exact hst
  have hkept := standing_kept (Parser.placesOf ts) hopened
  have hblock : Framed set (standing (Parser.placesOf ts) (opened set s st).scopes) ∅
      (opened set s st).depth (Script.block s body) :=
    block_framed (Nat.zero_le s) fun n hn => (hbody n hn).all
  constructor
  · have hkeeps := script_preserved fuel (Set.empty_subset _) hblock _ hkept
    obtain ⟨st₁, he⟩ := h
    obtain ⟨t, ht, hplace⟩ :=
      standing_places ((preserved_error hkeeps he).1 e rfl hknown) hknown
    exact ⟨t, ht, hplace.symm⟩
  · rcases script_fails (Set.empty_subset _) hblock hkept hknown h with
      h | ⟨t, now, hbegins, hfails⟩
    · cases h
    · obtain ⟨ht, d, hnow⟩ := begins_within (Set.empty_subset _) hblock hkept hbegins
      obtain ⟨m, hm, rfl | ⟨k, rfl, hreaches⟩⟩ := innermost_found hknown ht hnow hfails
      · exact ⟨_, .begun hbegins, hm⟩
      · exact ⟨m, .inside trivial hbegins hreaches, hm⟩

/-- A run of an accepted program fails with no error but those at tokens, which got their place from
the innermost task that failed; and an error with a place leaves all that is around it as it is. -/
theorem runtime_errors_located {source : String} {program : Node}
    (h : parseProgram source = .ok program) (set : Settings) (fuel s : Nat)
    (hst : st.closures = #[]) :
    ∃ ts body, tokenize source = .ok ts ∧ program = .program Position.start body ∧
      (∀ e st', run set fuel program s st = .error (.error e) st' →
        ErrorLocated set fuel s ts body st e) ∧
      ∀ e : RuntimeError, e.place.isKnown = true → GoesOut set e := by
  obtain ⟨body, rfl, -⟩ := Parser.source_executable h
  unfold parseProgram at h
  cases hts : tokenize source with
  | error e =>
    rw [hts] at h
    cases h
  | ok ts =>
    rw [hts] at h
    refine ⟨ts, body, rfl, rfl, ?_, fun e => placed_goes_out set⟩
    intro e st' hrun
    exact block_located (Parser.program_stands h) hst (run_fails hrun)

/-- A division by zero, in a function. -/
def badDivision : String := "def f(n):\n    return 1 / n\nf(0)\n"

theorem division_error_located :
    ∃ program ts t e st, parseProgram badDivision = .ok program ∧ bare.closures = #[] ∧
      run ⟨⟨[]⟩, 200, 0⟩ 20 program ownScope bare = .error (.error e) st ∧
      e.place = Place.ofPosition ⟨2, 14⟩ ∧ tokenize badDivision = .ok ts ∧ t ∈ ts ∧
      e.place = Place.ofPosition t.pos := by
  obtain ⟨program, hparse, e, st, hrun, hplace⟩ : ∃ program,
      parseProgram badDivision = .ok program ∧ ∃ e st,
        run ⟨⟨[]⟩, 200, 0⟩ 20 program ownScope bare = .error (.error e) st ∧
          e.place = Place.ofPosition ⟨2, 14⟩ := ⟨_, by cbv, _, _, by cbv, by cbv⟩
  have hst : bare.closures = #[] := rfl
  obtain ⟨ts, body, hts, -, hlocated, -⟩ :=
    runtime_errors_located hparse ⟨⟨[]⟩, 200, 0⟩ 20 ownScope hst
  obtain ⟨t, ht, htoken⟩ := (hlocated e st hrun).token
  exact ⟨program, ts, t, e, st, hparse, hst, hrun, hplace, hts, ht, htoken⟩

end Offside.Interpreter
