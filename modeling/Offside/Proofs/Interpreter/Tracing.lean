import Mathlib
import Offside.Proofs.Evaluator.Conduct
import Offside.Proofs.Evaluator.Parallel
import Offside.Proofs.Interpreter.Session
import Offside.Proofs.Interpreter.Accepted
import Offside.Proofs.Parser.Placing

/-!
Runs at two levels of detail. A program that calls no builtin for files, directories or the system
does the same at every level, with the same answer, and leaves the same behind but for its trace;
the lines of the less detailed trace are among those of the other, in the same order. A trace cannot
hold a surrogate: a run that comes to a line with one in it ends there, and only a less detailed one
goes on.
-/

namespace Offside

/-- The lines of a text; what comes after its last line feed is one, too. -/
def linesOf (text : ByteArray) : List (List UInt8) := text.data.toList.splitOn 10

theorem traceText_bytes (messages : List String) :
    (traceText messages).data.toList =
      messages.flatMap fun message => message.toUTF8.data.toList ++ [10] := by
  induction messages using List.reverseRecOn with
  | nil => rfl
  | append_singleton messages message ih =>
    have hline : (message ++ "\n").toUTF8.data.toList = message.toUTF8.data.toList ++ [10] := by
      rw [String.toUTF8, String.toByteArray_append, ByteArray.data_append, Array.toList_append]
      rfl
    rw [traceText_snoc, ByteArray.data_append, Array.toList_append, ih, hline]
    simp

/-- The lines of a trace are those of its messages, one message after another. -/
theorem linesOf_traceText (messages : List String) :
    linesOf (traceText messages) =
      (messages.flatMap fun message => message.toUTF8.data.toList.splitOn 10) ++ [[]] := by
  rw [linesOf, traceText_bytes]
  induction messages with
  | nil => rfl
  | cons message messages ih =>
    rw [List.flatMap_cons, List.flatMap_cons, List.append_assoc, List.singleton_append,
      List.splitOn_append_cons_self, ih, List.append_assoc]

theorem linesOf_sublist {messages messages' : List String} (h : messages.Sublist messages') :
    (linesOf (traceText messages)).Sublist (linesOf (traceText messages')) := by
  rw [linesOf_traceText, linesOf_traceText]
  exact (h.flatMap _).append_right _

namespace Evaluator

/-- The task is a call of the builtin of this name. -/
def Task.CallsBuiltin (name : String) : Task → Prop
  | call (.native called) _ | call (.bound called _) _ => called = name
  | _ => False

/-- What a run answers with: nothing, or the error that it stopped with. -/
def answerOf {α : Type} : Outcome α → Except Stop α
  | .ok a _ => .ok a
  | .error e _ => .error e

variable {D : Detail} {st st' : State}

theorem Twin.lines (h : Twin D st st') (hfirst : 0 < D.first) (hle : D.first ≤ D.second) :
    ∃ text text', st.world.disk.read traceFile = .ok text ∧
      st'.world.disk.read traceFile = .ok text' ∧ (linesOf text).Sublist (linesOf text') := by
  obtain ⟨messages, messages', hlogged, hlogged', hsub⟩ := h.traces
  have hholds := (hlogged hfirst).holds
  have hholds' := (hlogged' (hfirst.trans_le hle)).holds
  refine ⟨_, _, hholds.read, hholds'.read, ?_⟩
  by_cases hfile : D.file < D.size
  · rw [hholds.content hfile, hholds'.content hfile]
    exact linesOf_sublist (hsub hle)
  · -- The trace file is none of the objects of the disk, so nothing was ever written to it.
    rw [Disk.content_beyond (by rw [hholds.objects]; omega),
      Disk.content_beyond (by rw [hholds'.objects]; omega)]

end Evaluator

namespace Interpreter

open Evaluator

variable {set : Settings} {k k' : Nat} {D : Detail} {st st' : State}

/-- A run calls a builtin for files, directories or the system. -/
def UsesDisk (set : Settings) (fuel : Nat) (program : Node) (s : Nat) (st : State) : Prop :=
  ∃ body m name, statementsOf program = .ok body ∧ Reached set fuel body s st m ∧
    m.task.CallsBuiltin name ∧ set.registry.contains name = true ∧
    Library.isDiskName name = true

/-- Two runs, with the levels `k` and `k'` of detail, that only their traces tell apart. -/
structure SameRun (k k' : Nat) (r r' : Outcome Unit) : Prop where
  answer : answerOf r' = answerOf r
  scopes : (stateAfter r').scopes = (stateAfter r).scopes
  closures : (stateAfter r').closures = (stateAfter r).closures
  /-- The heap, the console and the environment variables. -/
  world : (stateAfter r').world = (stateAfter r).world.withDisk (stateAfter r').world.disk
  lines : 0 < k → k ≤ k' → ∃ text text',
    (stateAfter r).world.disk.read traceFile = .ok text ∧
      (stateAfter r').world.disk.read traceFile = .ok text' ∧
      (linesOf text).Sublist (linesOf text')

/-! ### The beginning of a run -/

/-- An interpreter is new but for the world that it is given, and its trace is empty. -/
theorem start_logged {w : World} {new : State} (h : start (set.withTrace k) w = .ok new) :
    new.world = w.withDisk new.world.disk ∧ new.depth = 0 ∧
      (0 < k → ∃ file disk, w.disk.openToWrite traceFile = .ok (file, disk) ∧
        Logged file disk.inodes.size new []) := by
  unfold start at h
  dsimp only at h
  by_cases hk : k = 0
  · rw [if_pos (show (set.withTrace k).traceLevel = 0 from hk)] at h
    cases h
    exact ⟨rfl, rfl, fun hpos => absurd hk hpos.ne'⟩
  · rw [if_neg (show ¬ (set.withTrace k).traceLevel = 0 from hk), startTrace] at h
    cases hopen : w.disk.openToWrite traceFile with
    | error e =>
      rw [hopen] at h
      cases h
    | ok opened =>
      rw [hopen] at h
      cases h
      exact ⟨rfl, rfl, fun _ => ⟨_, _, rfl, rfl, traceFile_plain.holds_opened hopen⟩⟩

/-- An interpreter starts at every level of detail if the trace file can be opened. -/
theorem start_at_every_level (set : Settings) {w : World} {opened : Nat × Disk}
    (h : w.disk.openToWrite traceFile = .ok opened) (k : Nat) :
    ∃ new, start (set.withTrace k) w = .ok new := by
  unfold start startTrace
  rw [h]
  dsimp only
  split
  · exact ⟨_, rfl⟩
  · exact ⟨_, rfl⟩

/-- Two new interpreters for one world are side by side, whatever they are given to go on with. -/
theorem taken_twin {w : World} {new new' : State} (hnew : start (set.withTrace k) w = .ok new)
    (hnew' : start (set.withTrace k') w = .ok new') (env : State) :
    ∃ file size, Twin ⟨k, k', file, size⟩ (taken new env) (taken new' env) := by
  obtain ⟨hworld, hdepth, hlogged⟩ := start_logged hnew
  obtain ⟨hworld', hdepth', hlogged'⟩ := start_logged hnew'
  have hsame : new'.world = new.world.withDisk new'.world.disk := by
    rw [hworld, World.withDisk_withDisk]
    exact hworld'
  have hmatch {file size : Nat} (hfirst : 0 < k → Logged file size new [])
      (hsecond : 0 < k' → Logged file size new' []) :
      Twin ⟨k, k', file, size⟩ (taken new env) (taken new' env) :=
    ⟨hsame, rfl, rfl, hdepth'.trans hdepth.symm, [], [],
      fun hpos => ⟨(hfirst hpos).opened, (hfirst hpos).holds⟩,
      fun hpos => ⟨(hsecond hpos).opened, (hsecond hpos).holds⟩, fun _ => .slnil⟩
  cases hopen : w.disk.openToWrite traceFile with
  | error e =>
    refine ⟨0, 0, hmatch (fun hpos => ?_) fun hpos => ?_⟩
    · obtain ⟨_, _, hok, -⟩ := hlogged hpos
      cases hopen.symm.trans hok
    · obtain ⟨_, _, hok, -⟩ := hlogged' hpos
      cases hopen.symm.trans hok
  | ok opened =>
    refine ⟨opened.1, opened.2.inodes.size, hmatch (fun hpos => ?_) fun hpos => ?_⟩
    · obtain ⟨_, _, hok, hlogged⟩ := hlogged hpos
      cases hopen.symm.trans hok
      exact hlogged
    · obtain ⟨_, _, hok, hlogged⟩ := hlogged' hpos
      cases hopen.symm.trans hok
      exact hlogged

theorem opened_twin (h : Twin D st st') (set : Settings) (s : Nat) :
    Twin D (opened (set.withTrace D.first) s st) (opened (set.withTrace D.second) s st') := by
  unfold opened
  by_cases hs : s = ownScope
  · rwa [if_pos hs, if_pos hs]
  · rw [if_neg hs, if_neg hs]
    refine h.change rfl rfl rfl h.world ?_ h.closures h.depth
    exact congrArg (installBuiltins set.registry s) h.scopes

/-! ### The end of a run -/

/-- The run with the more detailed trace ended at a line that the trace cannot hold. -/
def MoreDetailedCut (k k' : Nat) (r r' : Outcome Unit) : Prop :=
  k < k' ∧ Cut r' ∨ k' < k ∧ Cut r

theorem sameRun_of_alike {r r' : Outcome Unit} (h : Alike D r r') :
    SameRun D.first D.second r r' ∨ MoreDetailedCut D.first D.second r r' := by
  cases h with
  | ok h => exact .inl ⟨rfl, h.scopes, h.closures, h.world, h.lines⟩
  | error h => exact .inl ⟨rfl, h.scopes, h.closures, h.world, h.lines⟩
  | firstCut hlevel h => exact .inr (.inr ⟨hlevel, h⟩)
  | secondCut hlevel h => exact .inr (.inl ⟨hlevel, h⟩)

theorem closing_answer (x : Run Unit) (st : State) :
    answerOf (closing x st) = answerOf (x st) := by
  unfold closing
  cases x st <;> rfl

theorem cut_closing {x : Run Unit} (h : Cut (x st)) : Cut (closing x st) := by
  obtain ⟨e, now, hx⟩ := h
  exact ⟨e, closeTrace now, by rw [closing, hx]⟩

/-- Closing the trace changes nothing of what two runs have in common. -/
theorem sameRun_closing {x x' : Run Unit} (h : SameRun k k' (x st) (x' st')) :
    SameRun k k' (closing x st) (closing x' st') := by
  refine ⟨?_, ?_, ?_, ?_, ?_⟩
  · rw [closing_answer, closing_answer, h.answer]
  all_goals rw [closing_after, closing_after]
  · exact h.scopes
  · exact h.closures
  · exact h.world
  · exact h.lines

/-! ### What a run reaches -/

/-- An interpreter without builtins for files, directories and the system uses none. -/
theorem not_usesDisk (h : ∀ b ∈ set.registry.builtins, Library.isDiskName b.name = false)
    (fuel : Nat) (program : Node) (s : Nat) (st : State) : ¬ UsesDisk set fuel program s st := by
  rintro ⟨_, _, name, -, -, -, hcontains, hdisk⟩
  obtain ⟨b, hb, hname⟩ := List.any_eq_true.mp hcontains
  obtain rfl : b.name = name := by simpa using hname
  rw [h b hb] at hdisk
  cases hdisk

/-- The frame of trees whose parameters are texts. -/
def textual : Scopes → Frame := Frame.ofNodes Node.TextParams fun _ _ => trivial

theorem builtin_offDisk (hlibrary : ∀ b ∈ set.registry.builtins, b ∈ Library.builtins)
    {name : String}
    (huse : set.registry.contains name = true → Library.isDiskName name = false) :
    ∀ b, set.registry.find? name = some b → Library.IsOffDisk b := by
  intro b hb
  have hmem : b ∈ set.registry.builtins := List.mem_of_find?_eq_some hb
  have hname : b.name = name := by simpa using List.find?_some hb
  refine Library.library_offDisk (hlibrary b hmem) (hname ▸ huse ?_)
  exact List.any_eq_true.mpr ⟨b, hmem, by simpa using hname⟩

theorem task_usual {F : Scopes} {t : Task} (ht : t.Within (textual F))
    (hlibrary : ∀ b ∈ set.registry.builtins, b ∈ Library.builtins)
    (huse : ∀ name, t.CallsBuiltin name → set.registry.contains name = true →
      Library.isDiskName name = false) : t.Usual set.registry := by
  cases t with
  | call f args =>
    cases f with
    | native name => exact builtin_offDisk hlibrary (huse name rfl)
    | bound name receiver => exact builtin_offDisk hlibrary (huse name rfl)
    | _ => trivial
  | work w =>
    cases w with
    | execute node s =>
      cases node with
      | functionDef p name params body => exact strayName_none ht.2.here
      | _ => trivial
    | _ => trivial
  | _ => trivial

theorem accepted_textParams {source : String} {p : Place} {body : List Node}
    (h : parseProgram source = .ok (.program p body)) : ∀ n ∈ body, n.All Node.TextParams := by
  unfold parseProgram at h
  cases hts : tokenize source with
  | error e =>
    rw [hts] at h
    cases h
  | ok ts =>
    rw [hts] at h
    exact fun n hn m hm => ((Parser.program_stands h n hn).all m hm).textual.params

/-- Tracing changes nothing that a program does, if it uses no builtin that has to do with the disk,
and a more detailed trace has all the lines of a less detailed one, unless the run ends because the
more detailed trace cannot hold its next line. -/
theorem tracing_changes_nothing {source : String} {program : Node}
    (hparse : parseProgram source = .ok program)
    (hlibrary : ∀ b ∈ set.registry.builtins, b ∈ Library.builtins) {w : World} {new new' : State}
    (hnew : start (set.withTrace k) w = .ok new) (hnew' : start (set.withTrace k') w = .ok new')
    {env : State} (henv : ∀ c ∈ env.closures, ∀ n ∈ c.body, n.All Node.TextParams) {fuel s : Nat}
    (huse : ¬ UsesDisk (set.withTrace k) fuel program s (taken new env)) :
    SameRun k k' (run (set.withTrace k) fuel program s (taken new env))
        (run (set.withTrace k') fuel program s (taken new' env)) ∨
      MoreDetailedCut k k' (run (set.withTrace k) fuel program s (taken new env))
        (run (set.withTrace k') fuel program s (taken new' env)) := by
  obtain ⟨body, rfl, -⟩ := Parser.source_executable hparse
  obtain ⟨file, size, htwin⟩ := taken_twin hnew hnew' env
  have hopened := opened_twin htwin set s
  have hkept : (textual (opened (set.withTrace k) s (taken new env)).scopes).Kept
      (opened (set.withTrace k) s (taken new env)).depth
      (opened (set.withTrace k) s (taken new env)) := by
    refine Frame.kept_here rfl ?_
    unfold opened
    split <;> exact henv
  have hblock : Framed (set.withTrace k)
      (textual (opened (set.withTrace k) s (taken new env)).scopes) ∅
      (opened (set.withTrace k) s (taken new env)).depth (Script.block s body) :=
    block_framed (Nat.zero_le s) (accepted_textParams hparse)
  have husual (m : Moment) (hm : Reached (set.withTrace k) fuel body s (taken new env) m) :
      m.task.Usual set.registry := by
    refine task_usual (reaches_within (Set.empty_subset _) hblock hkept hm).1 hlibrary ?_
    intro name hcall hcontains
    by_contra hname
    exact huse ⟨body, m, name, rfl, hm, hcall, hcontains, by simpa using hname⟩
  rw [run_apply, run_apply]
  by_cases hframes : mostFrames < framesFor set.maxDepth
  · rw [if_pos (show mostFrames < framesFor (set.withTrace k).maxDepth from hframes),
      if_pos (show mostFrames < framesFor (set.withTrace k').maxDepth from hframes)]
    exact sameRun_of_alike (.error hopened)
  · rw [if_neg (show ¬ mostFrames < framesFor (set.withTrace k).maxDepth from hframes),
      if_neg (show ¬ mostFrames < framesFor (set.withTrace k').maxDepth from hframes)]
    have halike := script_alike (block_parallel s body) hopened husual
    rw [Script.play_block, Script.play_block] at halike
    have hexecute : Alike ⟨k, k', file, size⟩
        (execute (set.withTrace k) fuel (.program Position.start body) s
          (opened (set.withTrace k) s (taken new env)))
        (execute (set.withTrace k') fuel (.program Position.start body) s
          (opened (set.withTrace k') s (taken new' env))) :=
      alike_bind halike fun _ _ _ _ hnow => .ok hnow
    rcases sameRun_of_alike hexecute with h | ⟨hlevel, h⟩ | ⟨hlevel, h⟩
    · exact .inl (sameRun_closing h)
    · exact .inr (.inl ⟨hlevel, cut_closing h⟩)
    · exact .inr (.inr ⟨hlevel, cut_closing h⟩)

/-- Whether a run came to its end, and whether it was cut, as a test. -/
def completes : Outcome Unit → Bool
  | .ok .. => true
  | .error .. => false

def isCut : Outcome Unit → Bool
  | .error (.fault (.surrogates _)) _ => true
  | _ => false

theorem ok_of_completes {r : Outcome Unit} (h : completes r = true) : ∃ now, r = .ok () now := by
  cases r with
  | ok a now => exact ⟨now, rfl⟩
  | error e now => cases h

theorem cut_of_isCut {r : Outcome Unit} (h : isCut r = true) : Cut r := by
  unfold isCut at h
  split at h
  · next e now => exact ⟨e, now, rfl⟩
  · cases h

/-- A call of a function whose value is printed. -/
def tracedCall : String := "def f(n):\n    return n + 1\nprint(f(1))\n"

def printOnly : Settings := ⟨⟨[⟨"print", none, none, Library.print⟩]⟩, 200, 0⟩

/-- A world with an empty working directory. -/
def emptyWorld : World := { (default : World) with disk := .ofNames ["work"] }

theorem traced_call_agrees :
    ∃ program new new', parseProgram tracedCall = .ok program ∧
      (∀ b ∈ printOnly.registry.builtins, b ∈ Library.builtins) ∧
      start (printOnly.withTrace 1) emptyWorld = .ok new ∧
      start (printOnly.withTrace 4) emptyWorld = .ok new' ∧
      (∀ c ∈ new.closures, ∀ n ∈ c.body, n.All Node.TextParams) ∧
      ¬ UsesDisk (printOnly.withTrace 1) 30 program ownScope (taken new new) ∧
      (∃ st, run (printOnly.withTrace 1) 30 program ownScope (taken new new) = .ok () st ∧
        st.world.output = "2\n") ∧
      SameRun 1 4 (run (printOnly.withTrace 1) 30 program ownScope (taken new new))
        (run (printOnly.withTrace 4) 30 program ownScope (taken new' new)) := by
  have hopen : emptyWorld.disk.openToWrite traceFile =
      .ok (emptyWorld.disk.create 1 traceFile (.file .empty)) := by
    rw [traceFile_plain.openToWrite]
    rfl
  let new : State :=
    ⟨emptyWorld.withDisk (emptyWorld.disk.create 1 traceFile (.file .empty)).2,
      newScopes printOnly.registry, #[], 0, some ⟨2, some 0⟩⟩
  have hnew (k : Nat) : start (printOnly.withTrace (k + 1)) emptyWorld = .ok new := by
    unfold start startTrace
    rw [hopen]
    rfl
  obtain ⟨program, hparse, hrun, hrun'⟩ : ∃ program, parseProgram tracedCall = .ok program ∧
      (∃ st, run (printOnly.withTrace 1) 30 program ownScope (taken new new) = .ok () st ∧
        st.world.output = "2\n") ∧
      ∃ st, run (printOnly.withTrace 4) 30 program ownScope (taken new new) = .ok () st :=
    ⟨_, by cbv, ⟨_, by cbv, by cbv⟩, ok_of_completes (by decide +kernel)⟩
  have hlibrary : ∀ b ∈ printOnly.registry.builtins, b ∈ Library.builtins := by
    simp [printOnly, Library.builtins, Library.core]
  have henv : ∀ c ∈ new.closures, ∀ n ∈ c.body, n.All Node.TextParams :=
    fun _ hc => absurd hc (Array.not_mem_empty _)
  have huse : ¬ UsesDisk (printOnly.withTrace 1) 30 program ownScope (taken new new) := by
    refine not_usesDisk ?_ _ _ _ _
    decide
  refine ⟨program, new, new, hparse, hlibrary, hnew 0, hnew 3, henv, huse, hrun, ?_⟩
  rcases tracing_changes_nothing hparse hlibrary (hnew 0) (hnew 3) henv huse with hsame | hcut
  · exact hsame
  · obtain ⟨st, hok⟩ := hrun'
    rcases hcut with ⟨-, e, now, hcut⟩ | ⟨hlevel, -⟩
    · cases hok.symm.trans hcut
    · omega

/-- A surrogate with a name. -/
def namedSurrogate : String := "x = chr(54 * 32 * 32)\n"

def chrOnly : Settings := ⟨⟨[⟨"chr", some 1, none, Library.character⟩]⟩, 200, 0⟩

/-- It runs to its end without a trace, and with one that has assignments it does not. -/
theorem surrogate_cuts_trace :
    ∃ program new new', parseProgram namedSurrogate = .ok program ∧
      (∀ b ∈ chrOnly.registry.builtins, b ∈ Library.builtins) ∧
      start (chrOnly.withTrace 0) emptyWorld = .ok new ∧
      start (chrOnly.withTrace 2) emptyWorld = .ok new' ∧
      (∀ c ∈ new.closures, ∀ n ∈ c.body, n.All Node.TextParams) ∧
      ¬ UsesDisk (chrOnly.withTrace 0) 30 program ownScope (taken new new) ∧
      ¬ SameRun 0 2 (run (chrOnly.withTrace 0) 30 program ownScope (taken new new))
        (run (chrOnly.withTrace 2) 30 program ownScope (taken new' new)) := by
  have hopen : emptyWorld.disk.openToWrite traceFile =
      .ok (emptyWorld.disk.create 1 traceFile (.file .empty)) := by
    rw [traceFile_plain.openToWrite]
    rfl
  let new : State := ⟨emptyWorld, newScopes chrOnly.registry, #[], 0, none⟩
  let new' : State :=
    ⟨emptyWorld.withDisk (emptyWorld.disk.create 1 traceFile (.file .empty)).2,
      newScopes chrOnly.registry, #[], 0, some ⟨2, some 0⟩⟩
  have hnew : start (chrOnly.withTrace 0) emptyWorld = .ok new := rfl
  have hnew' : start (chrOnly.withTrace 2) emptyWorld = .ok new' := by
    unfold start startTrace
    rw [hopen]
    rfl
  obtain ⟨program, hparse, ⟨st, hrun⟩, e, st', hcut⟩ :
      ∃ program, parseProgram namedSurrogate = .ok program ∧
        (∃ st, run (chrOnly.withTrace 0) 30 program ownScope (taken new new) = .ok () st) ∧
        Cut (run (chrOnly.withTrace 2) 30 program ownScope (taken new' new)) :=
    ⟨_, by cbv, ok_of_completes (by decide +kernel), cut_of_isCut (by decide +kernel)⟩
  have hlibrary : ∀ b ∈ chrOnly.registry.builtins, b ∈ Library.builtins := by
    simp [chrOnly, Library.builtins, Library.core]
  have henv : ∀ c ∈ new.closures, ∀ n ∈ c.body, n.All Node.TextParams :=
    fun _ hc => absurd hc (Array.not_mem_empty _)
  have huse : ¬ UsesDisk (chrOnly.withTrace 0) 30 program ownScope (taken new new) := by
    refine not_usesDisk ?_ _ _ _ _
    decide
  refine ⟨program, new, new', hparse, hlibrary, hnew, hnew', henv, huse, fun h => ?_⟩
  have hanswer := h.answer
  rw [hrun, hcut] at hanswer
  cases hanswer

end Interpreter

end Offside
