import Mathlib
import Offside.Proofs.Evaluator.Tidy
import Offside.Proofs.Heap.Walk
import Offside.Proofs.Interpreter.Accepted

/-!
Termination without `while`. Every task of a tidy script is lighter than the script or inside a call
that goes deeper, and no call goes deeper than the limit; so the calls that are left, and then the
weight, bound what is still to be done.
-/

namespace Offside.Evaluator

variable {α β : Type} {set : Settings} {st : State} {d m : Nat} {P : α → Prop} {Q : β → Prop}

theorem ends_located {x : Nat → Run α} {r : Outcome α} (p : Place) (h : Ends x st r) :
    ∃ r', Ends (fun fuel => Run.located p (x fuel)) st r' := by
  refine ⟨_, ends_through (fun r => Run.located p (fun _ => r) st) ?_ (fun _ => rfl) h⟩
  intro r hr
  unfold Run.located
  split
  · nofun
  · exact hr

theorem ends_deeper {x : Nat → Run α} {r : Outcome α}
    (h : Ends x st.enterCall r) :
    ∃ r', Ends (fun fuel => Run.deeper (x fuel)) st r' := by
  refine ⟨_, ends_through (fun r => Run.deeper (fun _ => r) st) ?_ (fun _ => rfl) h⟩
  intro r hr
  cases r with
  | ok a st' => nofun
  | error e st' =>
    rintro _ ⟨⟩
    exact hr _ rfl

/-- What comes first ends and keeps the invariant, and the script after it ends too. -/
theorem ends_then {x : Nat → Run β} {next : β → Script α} (hx : ∃ r, Ends x st r)
    (hmeets : ∀ fuel, Meets false d Q (x fuel st))
    (h : ∀ b st', Q b → At false d st' → ∃ r, (next b).Ends set st' r) :
    ∃ r, Ends (fun fuel => x fuel >>= fun b => (next b).play (Task.run set fuel)) st r := by
  obtain ⟨r, hr, m, hm⟩ := hx
  have hlast := hm m (Nat.le_refl m)
  cases r with
  | ok b st' =>
    obtain ⟨hb, hst'⟩ := meets_ok (hmeets m) hlast
    obtain ⟨r', hr', n, hn⟩ := h b st' hb hst'
    refine ⟨r', hr', max m n, fun fuel hf => ?_⟩
    dsimp only
    rw [bind_apply, hm fuel (by omega)]
    exact hn fuel (by omega)
  | error e st' =>
    refine ⟨.error e st', fun _ he => hr _ (by cases he; rfl), m, fun fuel hf => ?_⟩
    dsimp only
    rw [bind_apply, hm fuel hf]

/-- Every fit task at depth `d` that is lighter than `m` ends. -/
def AllEnd (set : Settings) (d m : Nat) : Prop :=
  ∀ (t : Task) context st, t.Fit false context → At false d st → t.weight < m →
    ∃ r, t.Ends set st r

/-- A tidy script ends if lighter tasks do, and so do all tasks inside the calls it may make. -/
theorem script_ends {p : Script α} (hp : Tidy set false d m P p) (hm : AllEnd set d m)
    (hdeep : ∀ e k, d < e → d < set.maxDepth → AllEnd set e k) (hst : At false d st) :
    ∃ r, p.Ends set st r := by
  induction hp generalizing st with
  | @done _ _ _ _ a => exact ⟨.ok a st, nofun, 0, fun _ _ => rfl⟩
  | act hx _ ih =>
    obtain ⟨hmeets, hfed⟩ := hx st hst
    exact ends_then ⟨_, hfed, 0, fun _ _ => rfl⟩ (fun _ => hmeets) fun b st hb hst =>
      ih b hb hm hdeep hst
  | task ht htm _ ih =>
    exact ends_then (hm _ _ st ht hst (htm rfl)) (fun fuel => run_meets fuel ht hst)
      fun b st hb hst => ih b hb hm hdeep hst
  | located hi _ ih ihnext =>
    obtain ⟨r, hr⟩ := ih hm hdeep hst
    exact ends_then (ends_located _ hr)
      (fun fuel => meets_located _ (script_meets fuel hi hst))
      fun b st hb hst => ihnext b hb hm hdeep hst
  | deeper hd hi _ ih ihnext =>
    obtain ⟨r, hr⟩ := ih (hdeep _ _ (Nat.lt_succ_self _) hd)
      (fun e k he _ => hdeep e k (Nat.lt_of_succ_lt he) hd) hst.enterCall
    exact ends_then (ends_deeper hr)
      (fun fuel => meets_deeper (fun st hst => script_meets fuel hi hst) hst)
      fun b st hb hst => ihnext b hb hm hdeep hst

/-- Induction on the calls that are left, and inside it on the weight. -/
theorem all_end (set : Settings) (d m : Nat) : AllEnd set d m := by
  induction hk : (set.maxDepth - d).toNat using Nat.strongRecOn generalizing d m with
  | _ k ihk =>
    induction m using Nat.strongRecOn with
    | _ m ihm =>
      intro t context st ht hst htm
      obtain ⟨r, hr⟩ := script_ends (script_tidy ht) (ihm t.weight htm)
        (fun e n he hd => ihk _ (by omega) e n rfl) hst
      exact ⟨r, ends_script.mpr hr⟩

/-- A block of statements without `while` ends. -/
theorem block_ends {context : Parser.Context} {ns : List Node} (h : Runnable false context ns)
    (s : Nat) (hst : At false d st) : ∃ r, (Script.block s ns).Ends set st r :=
  script_ends (block_tidy h fun _ => Nat.le_refl _) (all_end set d _)
    (fun e k _ _ => all_end set e k) hst

end Offside.Evaluator

/-!
Programs without `while` terminate. Bodies of functions come from the heap, but in an interpreter
whose functions are all without `while`, so are those that the program makes.
-/

namespace Offside.Interpreter

open Evaluator

variable {set : Settings} {st : State}

/-- The outcome of a run whose block of statements has the outcome `r`. -/
def finished (r : Outcome Completion) : Outcome Unit :=
  match r with
  | .ok _ st => .ok () (closeTrace st)
  | .error e st => .error e (closeTrace st)

theorem run_finished (hframes : ¬ mostFrames < framesFor set.maxDepth) (fuel : Nat) (p : Place)
    (body : List Node) (s : Nat) (st : State) :
    run set fuel (.program p body) s st =
      finished ((Script.block s body).play (Task.run set fuel) (opened set s st)) := by
  have hexecute : execute set fuel (.program p body) s (opened set s st) =
      (runBlock (Evaluator.execute set fuel · s) body >>= fun _ => pure ()) (opened set s st) := rfl
  rw [run_apply, if_neg hframes, Script.play_block]
  unfold closing
  rw [hexecute, bind_apply]
  change _ = finished (runBlock (Evaluator.execute set fuel · s) body (opened set s st))
  cases runBlock (Evaluator.execute set fuel · s) body (opened set s st) <;> rfl

theorem finished_fed {r : Outcome Completion} (hr : Fed r) : Fed (finished r) := by
  cases r with
  | ok a st => nofun
  | error e st =>
    rintro _ ⟨⟩
    exact hr _ rfl

theorem run_ends {p : Place} {body : List Node} (hb : Runnable false ⟨false, false⟩ body)
    (s : Nat) (hst : st.Safe false) :
    ∃ r, Ends (fun fuel => run set fuel (.program p body) s) st r := by
  by_cases hframes : mostFrames < framesFor set.maxDepth
  · refine ⟨.error (.fault .depthBeyondWord) (opened set s st), nofun, 0, fun fuel _ => ?_⟩
    exact (run_apply _ _ _ _ _).trans (if_pos hframes)
  · obtain ⟨r, hr⟩ := block_ends hb s (opened_at set s hst)
    exact ⟨_, ends_through finished (fun _ => finished_fed)
      (fun fuel => run_finished hframes fuel p body s st) hr⟩

/-- An accepted program in which no `while` stands ends, whatever the limit, the input and the scope
it runs in, if no function around has a `while` either. And nothing in it hangs on a value that
holds itself: the walks over values end in every heap. -/
theorem program_without_while_ends {source : String} {program : Node}
    (h : parseProgram source = .ok program) (hw : ∀ n, program.Contains n → ¬ n.IsWhile)
    (set : Settings) (s : Nat) {st : State} (hst : st.Safe false) :
    (∃ r, Ends (fun fuel => run set fuel program s) st r) ∧ ∀ h : Heap, h.WalksEnd := by
  obtain ⟨body, rfl, hbody⟩ := Parser.source_executable h
  refine ⟨run_ends (fun n hn => ?_) s hst, Heap.walks_end⟩
  exact Node.executable_without_while (hbody n hn) fun m hm => hw m (.part hn hm)

/-- A function that calls itself without end, from inside a loop over a List that holds itself. -/
def endlessCalls : String :=
  "def f(xs):\n    for x in xs:\n        xs[0] = xs\n        f(xs)\nf([1])\n"

/-- The statements of `endlessCalls`. -/
def endlessBody : List Node :=
  let spot (line column : Nat) : Place := .ofPosition ⟨line, column⟩
  [.functionDef (spot 1 1) "f" ["xs"]
    [.forStmt (spot 2 5) "x" (.identifier (spot 2 14) "xs")
      [.assign (spot 3 9)
        (.index (spot 3 9) (.identifier (spot 3 9) "xs") (.literal (spot 3 12) (.integer 0) "Integer"))
        (.identifier (spot 3 17) "xs"),
       .exprStmt (spot 4 9)
        (.call (spot 4 9) (.identifier (spot 4 9) "f") [.identifier (spot 4 11) "xs"])]],
   .exprStmt (spot 5 1) (.call (spot 5 1) (.identifier (spot 5 1) "f")
    [.listLiteral (spot 5 3) [.literal (spot 5 4) (.integer 1) "Integer"]])]

theorem endless_executable : Runnable false ⟨false, false⟩ endlessBody := by
  simp only [Runnable, endlessBody, List.forall_mem_cons, List.not_mem_nil, false_implies,
    implies_true, and_true]
  constructor
  · refine .functionDef (List.nodup_singleton _) (List.forall_mem_singleton.mpr ?_)
    refine .forStmt .identifier (List.forall_mem_cons.mpr ⟨?_, List.forall_mem_singleton.mpr ?_⟩)
    · exact .assign (.index .identifier .literal) rfl .identifier
    · exact .exprStmt (.call .identifier (List.forall_mem_singleton.mpr .identifier))
  · refine .exprStmt (.call .identifier (List.forall_mem_singleton.mpr ?_))
    exact .listLiteral (List.forall_mem_singleton.mpr .literal)

theorem endless_calls_end :
    ∃ program, parseProgram endlessCalls = .ok program ∧
      (∀ n, program.Contains n → ¬ n.IsWhile) ∧ bare.Safe false ∧
      ∃ r, Ends (fun fuel => run ⟨⟨[]⟩, 200, 0⟩ fuel program ownScope) bare r := by
  have hparse : parseProgram endlessCalls = .ok (.program Position.start endlessBody) := by cbv
  have hwhile : ∀ n, (Node.program Position.start endlessBody).Contains n → ¬ n.IsWhile :=
    fun n hn => Node.program_without_while endless_executable hn
  refine ⟨_, hparse, hwhile, bare_safe, ?_⟩
  exact (program_without_while_ends hparse hwhile ⟨⟨[]⟩, 200, 0⟩ ownScope bare_safe).1

end Offside.Interpreter
