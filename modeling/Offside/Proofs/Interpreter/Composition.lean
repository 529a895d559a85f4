import Mathlib
import Offside.Proofs.Evaluator.Completion
import Offside.Proofs.Evaluator.Tandem
import Offside.Proofs.Interpreter.Tracing
import Offside.Proofs.Parser.Composition

/-!
Programs one after another. What a session of two programs does, one run of both of them does that
stand in one text, but for the lines that the second has there. These are seen in the places of
errors and in the trace, so that a program has to leave its trace alone.
-/

namespace Offside

open Evaluator Lexer

namespace Interpreter

variable {set : Settings} {whiles : Bool} {fuel s : Nat} {st st' st₁ now : State} {p : Place}
  {body rest : List Node}

/-! ### The second run of a session -/

/-- Builtins that were installed are not installed again. -/
theorem installBuiltins_again {registry : Registry} {scopes scopes' : Scopes}
    (hs : scopes.outermost s < scopes.table.size)
    (h : (installBuiltins registry s scopes).Extends 0 scopes') :
    installBuiltins registry s scopes' = scopes' := by
  have hinstalled := extends_installBuiltins registry s scopes
  have hroot : scopes'.outermost s = scopes.outermost s :=
    Scopes.outermost_extends (Scopes.extends_trans hinstalled h) hs
  have hsize : scopes.outermost s < (installBuiltins registry s scopes).table.size :=
    hs.trans_le hinstalled.size
  change registry.globalNames.foldl (install (scopes'.outermost s)) scopes' = scopes'
  rw [hroot]
  apply installAll_self
  intro name hname
  have hbinds : ((installBuiltins registry s scopes).scope (scopes.outermost s)).binds name = true :=
    installAll_binds hs hname
  exact Scope.binds_mono (h.names _ hsize) hbinds

theorem opened_again (hs : s ≠ ownScope → st.scopes.outermost s < st.scopes.table.size)
    (h : (opened set s st).scopes.Extends 0 st₁.scopes) : opened set s st₁ = st₁ := by
  by_cases hown : s = ownScope
  · unfold opened
    rw [if_pos hown]
  · unfold opened at h ⊢
    rw [if_neg hown] at h
    rw [if_neg hown, installBuiltins_again (hs hown) h]

/-- A program that runs to its end completes normally, and its trace is closed. -/
theorem run_completed (hbody : Runnable whiles ⟨false, false⟩ body)
    (h : run set fuel (.program p body) s st = .ok () st₁) :
    ¬ mostFrames < framesFor set.maxDepth ∧
      ∃ now, runBlock (Evaluator.execute set fuel · s) body (opened set s st) = .ok .normal now ∧
        st₁ = closeTrace now := by
  rw [run_apply] at h
  by_cases hframes : mostFrames < framesFor set.maxDepth
  · rw [if_pos hframes] at h
    cases h
  · rw [if_neg hframes] at h
    refine ⟨hframes, ?_⟩
    have hexecute : execute set fuel (.program p body) s (opened set s st) =
        (runBlock (Evaluator.execute set fuel · s) body >>= fun _ => pure ()) (opened set s st) :=
      rfl
    unfold closing at h
    rw [hexecute, bind_apply] at h
    cases hrun : runBlock (Evaluator.execute set fuel · s) body (opened set s st) with
    | error e now =>
      rw [hrun] at h
      cases h
    | ok c now =>
      rw [hrun] at h
      obtain rfl := block_normal hbody hrun
      obtain ⟨⟩ := h
      exact ⟨now, rfl, rfl⟩

/-- After statements that complete normally come those that follow. -/
theorem runBlock_append {x : Node → Run Completion} (h : runBlock x body st = .ok .normal now) :
    runBlock x (body ++ rest) st = runBlock x rest now := by
  induction body generalizing st with
  | nil =>
    obtain ⟨⟩ := h
    rfl
  | cons node body ih =>
    rw [runBlock, bind_apply] at h
    rw [List.cons_append, runBlock, bind_apply]
    cases hx : x node st with
    | error e st' =>
      rw [hx] at h
      cases h
    | ok c st' =>
      rw [hx] at h
      cases c with
      | normal => exact ih h
      | _ => cases h

/-! ### The end of a run -/

/-- Two runs come to the same end but for places. If they are traced, their disks may be
different. -/
structure SameEnd (set : Settings) (r r' : Outcome Unit) : Prop where
  answer : (answerOf r').mapError Stop.bare = (answerOf r).mapError Stop.bare
  scopes : (stateAfter r').scopes = (stateAfter r).scopes
  functions : (stateAfter r').closures.size = (stateAfter r).closures.size
  bodies : ∀ id, ((stateAfter r).closure id).Shifted ((stateAfter r').closure id)
  /-- The heap, the console and the environment variables. -/
  world : (stateAfter r').world = (stateAfter r).world.withDisk (stateAfter r').world.disk
  disk : set.traceLevel = 0 → (stateAfter r').world.disk = (stateAfter r).world.disk

theorem sameEnd_of_matches {r r' : Outcome Unit} (h : Matches set Eq r r') : SameEnd set r r' := by
  cases h with
  | ok _ h => exact ⟨rfl, h.scopes, h.count, h.closures, h.world, h.untraced⟩
  | error he h =>
    exact ⟨congrArg Except.error he, h.scopes, h.count, h.closures, h.world, h.untraced⟩

theorem sameEnd_closing {x x' : Run Unit} (h : SameEnd set (x st) (x' st')) :
    SameEnd set (closing x st) (closing x' st') := by
  constructor
  · rw [closing_answer, closing_answer, h.answer]
  all_goals rw [closing_after, closing_after]
  · exact h.scopes
  · exact h.functions
  · exact h.bodies
  · exact h.world
  · exact h.disk

/-! ### What is traced -/

/-- The trace is in place, and while two programs run one after the other nothing else is written
to the disk. -/
structure TracedAlone (set : Settings) (fuel : Nat) (program next : Node) (s : Nat)
    (st st₁ : State) : Prop where
  trace : TraceInPlace st
  library : ∀ b ∈ set.registry.builtins, b ∈ Library.builtins
  first : ¬ UsesDisk set fuel program s st
  second : ¬ UsesDisk set fuel next s st₁

/-- The trace of a new interpreter is in place. -/
theorem start_traceInPlace {w : World} {new : State} (h : start set w = .ok new)
    (hlevel : 0 < set.traceLevel) : TraceInPlace new := by
  unfold start startTrace at h
  dsimp only at h
  rw [if_neg hlevel.ne'] at h
  cases hopen : w.disk.openToWrite traceFile with
  | error e =>
    rw [hopen] at h
    cases h
  | ok opened =>
    obtain ⟨i, d⟩ := opened
    rw [hopen] at h
    cases h
    have hholds := traceFile_plain.holds_opened hopen
    refine ⟨⟨i, hholds.found, hholds.regular⟩, ?_⟩
    rintro t ⟨⟩
    exact hholds.regular

theorem task_sparesDisk {t : Task} (hlibrary : ∀ b ∈ set.registry.builtins, b ∈ Library.builtins)
    (huse : ∀ name, t.CallsBuiltin name → set.registry.contains name = true →
      Library.isDiskName name = false) : t.SparesDisk set.registry := by
  cases t with
  | call f args =>
    cases f with
    | native name => exact builtin_offDisk hlibrary (huse name rfl)
    | bound name receiver => exact builtin_offDisk hlibrary (huse name rfl)
    | _ => trivial
  | _ => trivial

theorem reached_sparesDisk {m : Moment}
    (hlibrary : ∀ b ∈ set.registry.builtins, b ∈ Library.builtins)
    (huse : ¬ UsesDisk set fuel (.program p body) s st) (hm : Reached set fuel body s st m) :
    m.task.SparesDisk set.registry := by
  apply task_sparesDisk hlibrary
  intro name hcall hcontains
  by_contra hname
  exact huse ⟨body, m, name, rfl, hm, hcall, hcontains, by simpa using hname⟩

/-! ### Two programs in one text -/

/-- Closing the trace moves nothing. -/
theorem shifted_closed (h : 0 < set.traceLevel → TraceInPlace now) :
    Shifted set (closeTrace now) now := by
  have hself := shifted_refl h
  refine ⟨hself.world, hself.scopes, hself.count, hself.closures, hself.depth, hself.untraced, ?_⟩
  intro hlevel
  exact ⟨⟨(h hlevel).found, nofun⟩, h hlevel⟩

/-- Statements that write nothing but the trace to the disk leave the trace in place. -/
theorem block_traceInPlace {c : Completion} (hlevel : 0 < set.traceLevel) (hst : TraceInPlace st)
    (huse : ∀ m, Reaches set (fun _ => True) fuel (Script.block s body) st m →
      m.task.SparesDisk set.registry)
    (h : runBlock (Evaluator.execute set fuel · s) body st = .ok c now) : TraceInPlace now := by
  have hmatches : Matches set Eq (runBlock (Evaluator.execute set fuel · s) body st)
      (runBlock (Evaluator.execute set fuel · s) body st) := by
    have hscript := script_matches (block_paired .none s body) (shifted_refl fun _ => hst)
      fun _ => huse
    rw [show Node.movedList Relocation.none body = body from Node.movedList_id body,
      Script.play_block] at hscript
    exact hscript
  rw [h] at hmatches
  cases hmatches with
  | ok _ hnow => exact (hnow.traced hlevel).1

/-- The second of two programs does the same after the first in a session and after its statements
in one run. -/
theorem run_following {q r : Place} (f : Relocation)
    (hbody : Runnable whiles ⟨false, false⟩ body)
    (hs : s ≠ ownScope → st.scopes.outermost s < st.scopes.table.size)
    (hrun : run set fuel (.program p body) s st = .ok () st₁)
    (htraced : 0 < set.traceLevel →
      TracedAlone set fuel (.program p body) (.program q rest) s st st₁) :
    SameEnd set (run set fuel (.program q rest) s st₁)
      (run set fuel (.program r (body ++ Node.movedList f rest)) s st) := by
  obtain ⟨hframes, now, hblock, rfl⟩ := run_completed hbody hrun
  have hkept : (opened set s st).scopes.Extends 0 now.scopes := by
    have hall := (execute_kept set fuel (.program p body) s (opened set s st)).scopes
    have hexecute : execute set fuel (.program p body) s (opened set s st) = .ok () now := by
      change (runBlock (Evaluator.execute set fuel · s) body >>= fun _ => pure ()) _ = _
      rw [bind_apply, hblock]
      rfl
    rw [hexecute] at hall
    exact hall
  have hagain : opened set s (closeTrace now) = closeTrace now := opened_again hs hkept
  have htrace (hlevel : 0 < set.traceLevel) : TraceInPlace now := by
    have hopened : TraceInPlace (opened set s st) := by
      unfold opened
      split
      · exact (htraced hlevel).trace
      · exact (htraced hlevel).trace.change rfl rfl
    apply block_traceInPlace hlevel hopened _ hblock
    intro m hm
    exact reached_sparesDisk (htraced hlevel).library (htraced hlevel).first hm
  have hmatches : Matches set Eq
      (runBlock (Evaluator.execute set fuel · s) rest (closeTrace now))
      (runBlock (Evaluator.execute set fuel · s) (Node.movedList f rest) now) := by
    have hscript := @script_matches set _ _ _ fuel _ _ _ _ (block_paired f s rest)
      (shifted_closed htrace)
    rw [Script.play_block, Script.play_block] at hscript
    apply hscript
    intro hlevel m hm
    apply reached_sparesDisk (htraced hlevel).library (htraced hlevel).second
    unfold Reached
    rwa [hagain]
  have hexecute : Matches set Eq (execute set fuel (.program q rest) s (closeTrace now))
      (execute set fuel (.program r (body ++ Node.movedList f rest)) s (opened set s st)) := by
    have hwhole : runBlock (Evaluator.execute set fuel · s) (body ++ Node.movedList f rest)
        (opened set s st) = _ := runBlock_append hblock
    rw [← hwhole] at hmatches
    exact matches_bind hmatches fun _ _ _ _ _ _ hlast => .ok rfl hlast
  rw [run_apply, run_apply, if_neg hframes, if_neg hframes, hagain]
  exact sameEnd_closing (sameEnd_of_matches hexecute)

/-- A text that is accepted and ends its last line is read in front of another that begins a
statement on the outermost level: all that the other gives, statements or errors, comes after, so
many lines further down. If the first runs to its end, a session of the two comes to the same end as
one run of both, provided that whatever trace is written is left alone. -/
theorem programs_compose {first second : String} {program : Node} (hm : AtMargin first.toList)
    (hafresh : StartsAfresh second.toList) (hfirst : parseProgram first = .ok program) :
    ∃ body, program = .program Position.start body ∧
      parseProgram (first ++ second) =
        following body (first.toList.count '\n') (parseProgram second) ∧
      ∀ next whole, parseProgram second = .ok next → parseProgram (first ++ second) = .ok whole →
        ∀ (set : Settings) (fuel s : Nat) (st st₁ : State),
          (s ≠ ownScope → st.scopes.outermost s < st.scopes.table.size) →
          run set fuel program s st = .ok () st₁ →
          (0 < set.traceLevel → TracedAlone set fuel program next s st st₁) →
          SameEnd set (run set fuel next s st₁) (run set fuel whole s st) := by
  obtain ⟨body, rfl, hbody⟩ := Parser.source_executable hfirst
  have happend := parseProgram_append hm hafresh hfirst
  refine ⟨body, rfl, happend, ?_⟩
  intro next whole hnext hwhole set fuel s st st₁ hs hrun htraced
  obtain ⟨rest, rfl, -⟩ := Parser.source_executable hnext
  rw [hnext, hwhole] at happend
  obtain rfl : whole = .program Position.start
      (body ++ Node.movedList (Place.lower (first.toList.count '\n')) rest) := by
    rw [Node.movedList_eq]
    exact Except.ok.inj happend
  exact run_following (.lower (first.toList.count '\n')) hbody hs hrun htraced

/-- A new interpreter that is traced, in an empty working directory. -/
def newTraced (registry : Registry) : State :=
  ⟨emptyWorld.withDisk (emptyWorld.disk.create 1 traceFile (.file .empty)).2,
    newScopes registry, #[], 0, some ⟨2, some 0⟩⟩

theorem start_newTraced (hlevel : set.traceLevel ≠ 0) :
    start set emptyWorld = .ok (newTraced set.registry) := by
  have hopen : emptyWorld.disk.openToWrite traceFile =
      .ok (emptyWorld.disk.create 1 traceFile (.file .empty)) := by
    rw [traceFile_plain.openToWrite]
    rfl
  unfold start startTrace
  rw [if_neg hlevel, hopen]
  rfl

theorem atMargin_of_last {cs : List Char} (h : cs.getLast? = some '\n') : AtMargin cs := by
  intro c hc
  rw [h] at hc
  exact (Option.some.inj hc).symm

/-- A function, and a call of it in a text of its own. -/
def defined : String := "def f(n):\n    return n + 1\n"

def called : String := "print(f(1))\n"

theorem defined_then_called :
    ∃ program next whole new st₁, AtMargin defined.toList ∧ StartsAfresh called.toList ∧
      parseProgram defined = .ok program ∧ parseProgram called = .ok next ∧
      parseProgram (defined ++ called) = .ok whole ∧
      start (printOnly.withTrace 1) emptyWorld = .ok new ∧
      run (printOnly.withTrace 1) 30 program ownScope new = .ok () st₁ ∧
      TracedAlone (printOnly.withTrace 1) 30 program next ownScope new st₁ ∧
      (stateAfter (run (printOnly.withTrace 1) 30 next ownScope st₁)).world.output = "2\n" ∧
      SameEnd (printOnly.withTrace 1) (run (printOnly.withTrace 1) 30 next ownScope st₁)
        (run (printOnly.withTrace 1) 30 whole ownScope new) := by
  have hm : AtMargin defined.toList := atMargin_of_last (by cbv)
  have hafresh : StartsAfresh called.toList := by decide +kernel
  have hnew : start (printOnly.withTrace 1) emptyWorld = .ok (newTraced printOnly.registry) :=
    start_newTraced Nat.one_ne_zero
  obtain ⟨program, next, whole, st₁, hfirst, hnext, hwhole, hrun, hprinted⟩ :
      ∃ program next whole st₁, parseProgram defined = .ok program ∧
        parseProgram called = .ok next ∧ parseProgram (defined ++ called) = .ok whole ∧
        run (printOnly.withTrace 1) 30 program ownScope (newTraced printOnly.registry) =
          .ok () st₁ ∧
        (stateAfter (run (printOnly.withTrace 1) 30 next ownScope st₁)).world.output = "2\n" :=
    ⟨_, _, _, _, by cbv, by cbv, by cbv, by cbv, by decide +kernel⟩
  have hlibrary : ∀ b ∈ (printOnly.withTrace 1).registry.builtins, b ∈ Library.builtins := by
    simp [printOnly, Settings.withTrace, Library.builtins, Library.core]
  have hdisk : ∀ b ∈ (printOnly.withTrace 1).registry.builtins,
      Library.isDiskName b.name = false := by decide
  have htraced : TracedAlone (printOnly.withTrace 1) 30 program next ownScope
      (newTraced printOnly.registry) st₁ :=
    ⟨start_traceInPlace hnew Nat.one_pos, hlibrary, not_usesDisk hdisk _ _ _ _,
      not_usesDisk hdisk _ _ _ _⟩
  obtain ⟨body, rfl, -, hruns⟩ := programs_compose hm hafresh hfirst
  have hend := hruns next whole hnext hwhole (printOnly.withTrace 1) 30 ownScope _ st₁
    (fun hother => absurd rfl hother) hrun fun _ => htraced
  exact ⟨_, next, whole, _, st₁, hm, hafresh, hfirst, hnext, hwhole, hnew, hrun, htraced, hprinted,
    hend⟩

/-- A program that prints the trace. -/
def tracePrinted : String := "print(file_read(\"debug.txt\"))\n"

/-- Every statement is traced. -/
def tracingAll : Settings :=
  ⟨⟨[⟨"print", none, none, Library.print⟩, ⟨"file_read", some 1, none, Library.File.read⟩]⟩, 200, 4⟩

/-- The trace of one run of two programs has the lines of the second that it has in their text, and
that of a session those that it has by itself. A line that a carriage return begins is passed over,
so that what comes after it can go on with a block of the first text. -/
theorem seams_that_show :
    (∃ program next whole new st₁, AtMargin "pass\n".toList ∧ StartsAfresh tracePrinted.toList ∧
      parseProgram "pass\n" = .ok program ∧ parseProgram tracePrinted = .ok next ∧
      parseProgram ("pass\n" ++ tracePrinted) = .ok whole ∧
      start tracingAll emptyWorld = .ok new ∧ run tracingAll 30 program ownScope new = .ok () st₁ ∧
      (stateAfter (run tracingAll 30 next ownScope st₁)).world.output =
        "1:1: Pass\n1:1: ExprStmt\nbuiltin file_read(\"debug.txt\")\n\n" ∧
      (stateAfter (run tracingAll 30 whole ownScope new)).world.output =
        "1:1: Pass\n2:1: ExprStmt\nbuiltin file_read(\"debug.txt\")\n\n") ∧
    (∃ program e whole, AtMargin "if a:\n  b\n".toList ∧
      parseProgram "if a:\n  b\n" = .ok program ∧ parseProgram "\rx\n  y\n" = .error e ∧
      parseProgram ("if a:\n  b\n" ++ "\rx\n  y\n") = .ok whole) := by
  constructor
  · have hm : AtMargin "pass\n".toList := atMargin_of_last (by cbv)
    have hafresh : StartsAfresh tracePrinted.toList := by decide +kernel
    have hnew : start tracingAll emptyWorld = .ok (newTraced tracingAll.registry) :=
      start_newTraced (by decide)
    exact ⟨_, _, _, _, _, hm, hafresh, by cbv, by cbv, by cbv, hnew, by cbv, by decide +kernel,
      by decide +kernel⟩
  · have hm : AtMargin "if a:\n  b\n".toList := atMargin_of_last (by cbv)
    exact ⟨_, _, _, hm, by cbv, by cbv, by cbv⟩

end Interpreter

end Offside
