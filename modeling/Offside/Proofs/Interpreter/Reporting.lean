import Mathlib
import Offside.Proofs.Evaluator.Orderly
import Offside.Proofs.Interpreter.Tracing

/-!
How a run of an accepted program can fail. In a new interpreter, and without builtins that have to
do with the disk, it fails with an error of the language, unless memory is at an end, a line of the
trace has a surrogate in it, or the program asks for a remainder: the remainder of an infinite Float
is no number, and there is no error for it.
-/

namespace Offside.Interpreter

open Evaluator

variable {set : Settings} {R : Prop} {st : State}

/-- Only builtins that are no methods are bound to names. -/
theorem installBuiltins_proper (registry : Registry) (s : Nat) {scopes : Scopes}
    (h : scopes.Proper) : (installBuiltins registry s scopes).Proper := by
  have hall (root : Nat) : ∀ (names : List String) (scopes : Scopes),
      (∀ name ∈ names, (Value.native name).Proper) → scopes.Proper →
      Scopes.Proper (names.foldl (fun scopes (name : String) =>
        if (scopes.scope root).binds name then scopes
        else scopes.define root name (.native name)) scopes) := by
    intro names
    induction names with
    | nil => exact fun _ _ h => h
    | cons name names ih =>
      intro scopes hnames h
      obtain ⟨hname, hnames⟩ := List.forall_mem_cons.mp hnames
      refine ih _ hnames ?_
      dsimp only
      split
      · exact h
      · exact h.define root name hname
  refine hall _ _ _ (fun name hname => ?_) h
  obtain ⟨-, hdot⟩ := List.mem_filter.mp hname
  simpa [Value.Proper] using hdot

/-- A new interpreter holds values of the language only, and has no functions yet. -/
theorem start_proper {w : World} (hw : w.heap.Proper) (h : start set w = .ok st) :
    st.Proper set R := by
  obtain ⟨hheap, htrace, -⟩ := start_spec h
  obtain ⟨hscopes, hclosures⟩ := start_fresh h
  refine ⟨hheap ▸ hw, ?_, ?_, htrace⟩
  · rw [hscopes]
    exact installBuiltins_proper _ _ Scopes.root_proper
  · rw [hclosures]
    exact fun c hc => absurd hc (Array.not_mem_empty c)

/-- The statements of an accepted program are plain. -/
theorem accepted_plain {source : String} {p : Place} {body : List Node}
    (h : parseProgram source = .ok (.program p body))
    (hR : ∀ n, (Node.program p body).Contains n → n.IsRemainder → R) :
    ∀ n ∈ body, n.PlainAction R := by
  intro n hn
  obtain ⟨body, hprogram, hbody⟩ := Parser.source_executable h
  obtain ⟨-, rfl⟩ := Node.program.inj hprogram
  refine ⟨⟨_, hbody n hn⟩, fun m hm => ⟨?_, hR m (.part hn hm)⟩⟩
  unfold parseProgram at h
  cases hts : tokenize source with
  | error e =>
    rw [hts] at h
    cases h
  | ok ts =>
    rw [hts] at h
    exact ((Parser.program_stands h n hn).all m hm).textual

theorem reported_closing {x : Run Unit} (h : Reported set R Always (x st)) :
    ∀ e st', closing x st = .error e st' → e.Reported (0 < set.traceLevel) R := by
  intro e st' he
  unfold closing at he
  split at he
  · cases he
  · next e' st'' hx =>
    cases he
    rw [hx] at h
    exact h.1

/-- A run of an accepted program that calls no builtin for files, directories or the system fails
with nothing but errors of the language, as far as there is memory; only in a program that asks for
a remainder can an infinite Float be the dividend, and only a trace can meet a surrogate that it
cannot hold, for which there are no errors. -/
theorem failures_reported {source : String} {program : Node}
    (hparse : parseProgram source = .ok program)
    (hlibrary : ∀ b ∈ set.registry.builtins, b ∈ Library.builtins)
    (hframes : framesFor set.maxDepth ≤ mostFrames) {w : World} (hw : w.heap.Proper)
    (hstart : start set w = .ok st) {fuel : Nat} (huse : ¬ UsesDisk set fuel program ownScope st) :
    ∀ e st', run set fuel program ownScope st = .error e st' →
      e.Reported (0 < set.traceLevel) (∃ n, program.Contains n ∧ n.IsRemainder) := by
  obtain ⟨body, rfl, -⟩ := Parser.source_executable hparse
  have hplain := accepted_plain (R := ∃ n, (Node.program Position.start body).Contains n ∧
    n.IsRemainder) hparse fun n hn hr => ⟨n, hn, hr⟩
  have hdisk (m : Moment) (hm : Reached set fuel body ownScope st m) :
      m.task.OffDisk set.registry := by
    have hcall (name : String) (hname : m.task.CallsBuiltin name) :
        set.registry.contains name = true → Library.isDiskName name = false := by
      intro hcontains
      by_contra hdisk
      exact huse ⟨body, m, name, rfl, hm, hname, hcontains, by simpa using hdisk⟩
    obtain ⟨t, k, now⟩ := m
    cases t with
    | call f args =>
      cases f with
      | native name => exact hcall name rfl
      | bound name receiver => exact hcall name rfl
      | _ => trivial
    | _ => trivial
  have hblock := script_reported hlibrary (block_orderly hplain) (start_proper hw hstart) hdisk
  rw [Script.play_block] at hblock
  rw [run_apply, if_neg (by omega)]
  exact reported_closing (reported_bind hblock fun _ st' _ _ hst => ⟨trivial, hst⟩)

/-- An item that is not there. -/
def missingItem : String := "xs = [3]\nprint(xs[1])\n"

theorem missing_item_reported :
    ∃ program st, parseProgram missingItem = .ok program ∧
      (∀ b ∈ printOnly.registry.builtins, b ∈ Library.builtins) ∧
      framesFor printOnly.maxDepth ≤ mostFrames ∧ (default : World).heap.Proper ∧
      start printOnly default = .ok st ∧ ¬ UsesDisk printOnly 30 program ownScope st ∧
      ∃ e st', run printOnly 30 program ownScope st = .error e st' ∧
        e.Reported (0 < printOnly.traceLevel) (∃ n, program.Contains n ∧ n.IsRemainder) := by
  obtain ⟨program, st, hparse, hstart, e, st', hrun⟩ :
      ∃ program st, parseProgram missingItem = .ok program ∧
        start printOnly default = .ok st ∧
        ∃ e st', run printOnly 30 program ownScope st = .error e st' :=
    ⟨_, _, by cbv, rfl, _, _, by cbv⟩
  have hlibrary : ∀ b ∈ printOnly.registry.builtins, b ∈ Library.builtins := by
    simp [printOnly, Library.builtins, Library.core]
  have hframes : framesFor printOnly.maxDepth ≤ mostFrames := by decide
  have hheap : (default : World).heap.Proper := Heap.empty_proper
  have huse : ¬ UsesDisk printOnly 30 program ownScope st := by
    refine not_usesDisk ?_ _ _ _ _
    decide
  exact ⟨program, st, hparse, hlibrary, hframes, hheap, hstart, huse, e, st', hrun,
    failures_reported hparse hlibrary hframes hheap hstart huse e st' hrun⟩

/-- The run ended with this fault. -/
def endsWith (f : Fault) : EStateM.Result Stop State Unit → Bool
  | .error (.fault g) _ => g == f
  | _ => false

theorem fault_of_endsWith {x : EStateM.Result Stop State Unit} {f : Fault}
    (h : endsWith f x = true) : ∃ st', x = .error (.fault f) st' := by
  unfold endsWith at h
  split at h
  · exact ⟨_, by rw [beq_iff_eq.mp h]⟩
  · cases h

/-- A remainder of an infinite Float. -/
def infiniteDividend : String := "r = math_inf() % math_inf()\n"

/-- A run of it in a new interpreter ends without an error of the language, though it has the
builtins of the library and enough stack frames. -/
theorem infinite_dividend_unreported :
    ∃ program st, parseProgram infiniteDividend = .ok program ∧
      (∀ b ∈ Library.standard.builtins, b ∈ Library.builtins) ∧
      framesFor defaultDepth ≤ mostFrames ∧
      start ⟨Library.standard, defaultDepth, 0⟩ default = .ok st ∧
      ∃ st', run ⟨Library.standard, defaultDepth, 0⟩ 30 program ownScope st =
        .error (.fault .noRemainder) st' := by
  have hstart (registry : Registry) : start ⟨registry, defaultDepth, 0⟩ default =
      .ok ⟨default, newScopes registry, #[], 0, none⟩ := rfl
  refine ⟨_, _, by cbv, Library.standard_builtins, by decide, hstart _, fault_of_endsWith ?_⟩
  decide +kernel

end Offside.Interpreter
