import Offside.Proofs.Disk
import Offside.Proofs.Evaluator.OnHeap
import Offside.Proofs.Evaluator.Reach
import Offside.Proofs.Library.Confinement

/-!
States side by side. Two runs that trace in different detail are in states that differ on the disk
only, where each keeps its own trace; the messages of the less detailed one are among those of the
other. Every action of the evaluator that leaves the disk alone but for the trace takes such states
to such states, with the same result, unless the more detailed trace meets a line that it cannot
hold.
-/

namespace Offside

/-- The same settings with another level of detail for the trace. -/
def Settings.withTrace (set : Settings) (level : Nat) : Settings := { set with traceLevel := level }

/-- The text of a trace: every message with a line feed after it. -/
def traceText (messages : List String) : ByteArray :=
  messages.foldl (fun text message => text ++ (message ++ "\n").toUTF8) .empty

theorem traceText_snoc (messages : List String) (message : String) :
    traceText (messages ++ [message]) = traceText messages ++ (message ++ "\n").toUTF8 := by
  rw [traceText, List.foldl_append]
  rfl

namespace Evaluator

open Run

/-- The levels of detail of two runs, and the trace file among the objects of a disk. -/
structure Detail where
  first : Nat
  second : Nat
  file : Nat
  size : Nat

/-- The trace file is open at its end and holds these messages. -/
structure Logged (file size : Nat) (st : State) (messages : List String) : Prop where
  opened : st.trace = some ⟨file, some (traceText messages).size⟩
  holds : st.world.disk.Holds traceFile size file (traceText messages)

/-- Of two states, each with its own trace if there is one, the disks alone may be different. -/
structure Twin (D : Detail) (st st' : State) : Prop where
  world : st'.world = st.world.withDisk st'.world.disk
  scopes : st'.scopes = st.scopes
  closures : st'.closures = st.closures
  depth : st'.depth = st.depth
  traces : ∃ messages messages', (0 < D.first → Logged D.file D.size st messages) ∧
    (0 < D.second → Logged D.file D.size st' messages') ∧
    (D.first ≤ D.second → messages.Sublist messages')

variable {D : Detail} {α β : Type} {st st' now now' : State}

theorem Twin.heap (h : Twin D st st') : st'.world.heap = st.world.heap := by
  rw [h.world, World.withDisk_heap]

theorem Twin.sight (h : Twin D st st') : st'.sight = st.sight := by
  rw [State.sight, State.sight, h.heap, h.scopes, h.depth]

/-- A change that leaves the disk and the trace of both states alone. -/
theorem Twin.change (h : Twin D st st') (hdisk : now.world.disk = st.world.disk)
    (htrace : now.trace = st.trace) (htrace' : now'.trace = st'.trace)
    (hworld : now'.world = now.world.withDisk st'.world.disk)
    (hscopes : now'.scopes = now.scopes) (hclosures : now'.closures = now.closures)
    (hdepth : now'.depth = now.depth) : Twin D now now' := by
  have hdisk' : now'.world.disk = st'.world.disk := by
    rw [hworld, World.withDisk_disk]
  obtain ⟨messages, messages', hfirst, hsecond, hsub⟩ := h.traces
  refine ⟨?_, hscopes, hclosures, hdepth, messages, messages', ?_, ?_, hsub⟩
  · rw [hdisk', hworld]
  · intro hpos
    exact ⟨htrace.trans (hfirst hpos).opened, hdisk ▸ (hfirst hpos).holds⟩
  · intro hpos
    exact ⟨htrace'.trans (hsecond hpos).opened, hdisk' ▸ (hsecond hpos).holds⟩

/-- A run that ended at a line with a surrogate, which its trace cannot hold. -/
def Cut (r : Outcome α) : Prop := ∃ e now, r = .error (.fault (.surrogates e)) now

/-- The same outcome but for the disk, unless the run with the more detailed trace was cut. -/
inductive Alike (D : Detail) : Outcome α → Outcome α → Prop where
  | ok {a : α} {st st' : State} : Twin D st st' → Alike D (.ok a st) (.ok a st')
  | error {e : Stop} {st st' : State} : Twin D st st' → Alike D (.error e st) (.error e st')
  | firstCut {r r' : Outcome α} : D.second < D.first → Cut r → Alike D r r'
  | secondCut {r r' : Outcome α} : D.first < D.second → Cut r' → Alike D r r'

theorem cut_bind {x : Run β} (f : β → Run α) (h : Cut (x st)) : Cut ((x >>= f) st) := by
  obtain ⟨e, now, hx⟩ := h
  exact ⟨e, now, by rw [bind_apply, hx]⟩

theorem cut_located {x : Run α} {p : Place} (h : Cut (x st)) : Cut (Run.located p x st) := by
  obtain ⟨e, now, hx⟩ := h
  exact ⟨e, now, by rw [Run.located, hx]⟩

theorem cut_deeper {x : Run α} (h : Cut (x st.enterCall)) : Cut (Run.deeper x st) := by
  obtain ⟨e, now, hx⟩ := h
  exact ⟨e, now.leaveCall, by rw [Run.deeper, hx]⟩

theorem alike_bind {x x' : Run β} {f f' : β → Run α} (hx : Alike D (x st) (x' st'))
    (hf : ∀ b now now', x st = .ok b now → Twin D now now' → Alike D (f b now) (f' b now')) :
    Alike D ((x >>= f) st) ((x' >>= f') st') := by
  generalize hr : x st = r at hx
  generalize hr' : x' st' = r' at hx
  cases hx with
  | ok h =>
    rw [bind_apply, bind_apply, hr, hr']
    exact hf _ _ _ hr h
  | error h =>
    rw [bind_apply, bind_apply, hr, hr']
    exact .error h
  | firstCut hlevel h => exact .firstCut hlevel (cut_bind f (hr ▸ h))
  | secondCut hlevel h => exact .secondCut hlevel (cut_bind f' (hr' ▸ h))

theorem alike_located {x x' : Run α} {p : Place} (h : Alike D (x st) (x' st')) :
    Alike D (Run.located p x st) (Run.located p x' st') := by
  generalize hr : x st = r at h
  generalize hr' : x' st' = r' at h
  cases h with
  | ok h =>
    rw [Run.located, Run.located, hr, hr']
    exact .ok h
  | @error e _ _ h =>
    rw [Run.located, Run.located, hr, hr']
    cases e <;> exact .error h
  | firstCut hlevel h => exact .firstCut hlevel (cut_located (hr ▸ h))
  | secondCut hlevel h => exact .secondCut hlevel (cut_located (hr' ▸ h))

theorem Twin.deeper (h : Twin D st st') : Twin D st.enterCall st'.enterCall :=
  h.change rfl rfl rfl h.world h.scopes h.closures (congrArg (· + 1) h.depth)

theorem alike_deeper {x x' : Run α}
    (h : Alike D (x st.enterCall) (x' st'.enterCall)) :
    Alike D (Run.deeper x st) (Run.deeper x' st') := by
  have hleave {now now' : State} (h : Twin D now now') : Twin D now.leaveCall now'.leaveCall :=
    h.change rfl rfl rfl h.world h.scopes h.closures (congrArg (· - 1) h.depth)
  generalize hr : x st.enterCall = r at h
  generalize hr' : x' st'.enterCall = r' at h
  cases h with
  | ok h =>
    rw [Run.deeper, Run.deeper, hr, hr']
    exact .ok (hleave h)
  | error h =>
    rw [Run.deeper, Run.deeper, hr, hr']
    exact .error (hleave h)
  | firstCut hlevel h => exact .firstCut hlevel (cut_deeper (hr ▸ h))
  | secondCut hlevel h => exact .secondCut hlevel (cut_deeper (hr' ▸ h))

/-- From states side by side, two actions come to the same outcome but for the disk. -/
def InStep (D : Detail) (x x' : Run α) : Prop :=
  ∀ {st st'}, Twin D st st' → Alike D (x st) (x' st')

theorem inStep_bind {x x' : Run β} {f f' : β → Run α} (hx : InStep D x x')
    (hf : ∀ b, InStep D (f b) (f' b)) : InStep D (x >>= f) (x' >>= f') :=
  fun h => alike_bind (hx h) fun b _ _ _ hnow => hf b hnow

theorem inStep_pure (a : α) : InStep D (pure a) (pure a) := fun h => .ok h

theorem inStep_located {x x' : Run α} (p : Place) (h : InStep D x x') :
    InStep D (Run.located p x) (Run.located p x') :=
  fun hst => alike_located (h hst)

theorem inStep_onHeap {x : Run α} (h : OnHeap x) : InStep D x x := by
  obtain ⟨f, -, hx⟩ := h
  intro st st' hst
  rw [hx, hx, hst.sight]
  have hheap (h : Heap) : Twin D (withHeap st h) (withHeap st' h) := by
    refine hst.change rfl rfl rfl ?_ hst.scopes hst.closures hst.depth
    unfold withHeap
    rw [hst.world]
    rfl
  cases f st.sight with
  | mk r h =>
    cases r with
    | ok a => exact .ok (hheap h)
    | error e => exact .error (hheap h)

/-! ### The trace -/

theorem traceFile_plain : Disk.Plain traceFile := by
  constructor <;> decide

theorem writeTrace_apply {t : Trace} (h : st.trace = some t) (line : String) :
    writeTrace line st = match Text.encodeUtf8 (line ++ "\n") with
      | .ok bytes => appendTrace t bytes st
      | .error e => .error (.fault (.surrogates e)) st := by
  have hopen : openTrace st = .ok t st := by
    unfold openTrace
    rw [get_bind, h]
    rfl
  unfold writeTrace
  rw [bind_apply, hopen]
  dsimp only
  cases Text.encodeUtf8 (line ++ "\n") with
  | ok bytes => rfl
  | error e => rfl

theorem Logged.write {file size : Nat} {messages : List String}
    (h : Logged file size st messages) {line : String} {bytes : ByteArray}
    (hline : Text.encodeUtf8 (line ++ "\n") = .ok bytes) :
    ∃ disk trace, writeTrace line st =
        .ok () { st with world := st.world.withDisk disk, trace } ∧
      Logged file size { st with world := st.world.withDisk disk, trace } (messages ++ [line]) := by
  rw [writeTrace_apply h.opened, hline]
  obtain rfl := Text.bytes_of_encodeUtf8 hline
  refine ⟨_, _, rfl, ?_, ?_⟩
  · rw [traceText_snoc, ByteArray.size_append]
    rfl
  · rw [traceText_snoc]
    exact h.holds.append _

/-- A message is in the trace if the trace is detailed enough, and nothing else is different. -/
theorem traceAt_logged (set : Settings) {k level file size : Nat} {messages : List String}
    {line : Heap → String} {bytes : ByteArray} (hlevel : 0 < level)
    (h : 0 < k → Logged file size st messages)
    (hline : level ≤ k → Text.encodeUtf8 (line st.world.heap ++ "\n") = .ok bytes) :
    ∃ disk trace, traceAt (set.withTrace k) level line st =
        .ok () { st with world := st.world.withDisk disk, trace } ∧
      (0 < k → Logged file size { st with world := st.world.withDisk disk, trace }
        (if level ≤ k then messages ++ [line st.world.heap] else messages)) := by
  unfold traceAt
  by_cases hk : level ≤ k
  · obtain ⟨disk, trace, hwrite, hlogged⟩ := (h (hlevel.trans_le hk)).write (hline hk)
    refine ⟨disk, trace, ?_, fun _ => ?_⟩
    · rw [if_pos (show level ≤ (set.withTrace k).traceLevel from hk)]
      exact hwrite
    · rwa [if_pos hk]
  · refine ⟨st.world.disk, st.trace, ?_, ?_⟩
    · rw [if_neg (show ¬ level ≤ (set.withTrace k).traceLevel from hk)]
      rfl
    · rw [if_neg hk]
      exact h

variable {set : Settings}

theorem traceAt_untraced {k level : Nat} (hk : ¬ level ≤ k) (line : Heap → String) :
    traceAt (set.withTrace k) level line st = .ok () st := by
  rw [traceAt, if_neg (show ¬ level ≤ (set.withTrace k).traceLevel from hk)]
  rfl

theorem traceAt_cut {k level file size : Nat} {messages : List String} {line : Heap → String}
    {e : Text.SurrogateError} (hlevel : 0 < level) (hk : level ≤ k)
    (h : 0 < k → Logged file size st messages)
    (hline : Text.encodeUtf8 (line st.world.heap ++ "\n") = .error e) :
    traceAt (set.withTrace k) level line st = .error (.fault (.surrogates e)) st := by
  have hwrite := writeTrace_apply (h (hlevel.trans_le hk)).opened (line st.world.heap)
  rw [hline] at hwrite
  rw [traceAt, if_pos (show level ≤ (set.withTrace k).traceLevel from hk)]
  exact hwrite

/-- A line that no trace can hold ends both runs, or one, or is in neither trace. -/
theorem traceAt_alike_cut {level : Nat} {line : Heap → String} {e : Text.SurrogateError}
    (hlevel : 0 < level) (h : Twin D st st')
    (hline : Text.encodeUtf8 (line st.world.heap ++ "\n") = .error e) :
    Alike D (traceAt (set.withTrace D.first) level line st)
      (traceAt (set.withTrace D.second) level line st') := by
  obtain ⟨messages, messages', hfirst, hsecond, -⟩ := h.traces
  have hline' : Text.encodeUtf8 (line st'.world.heap ++ "\n") = .error e := by
    rw [h.heap]
    exact hline
  by_cases hk : level ≤ D.first
  · rw [traceAt_cut hlevel hk hfirst hline]
    by_cases hk' : level ≤ D.second
    · rw [traceAt_cut hlevel hk' hsecond hline']
      exact .error h
    · exact .firstCut (by omega) ⟨e, st, rfl⟩
  · by_cases hk' : level ≤ D.second
    · rw [traceAt_cut hlevel hk' hsecond hline']
      exact .secondCut (by omega) ⟨e, st', rfl⟩
    · rw [traceAt_untraced hk, traceAt_untraced hk']
      exact .ok h

theorem traceAt_inStep {level : Nat} (hlevel : 0 < level) (line : Heap → String) :
    InStep D (traceAt (set.withTrace D.first) level line)
      (traceAt (set.withTrace D.second) level line) := by
  intro st st' h
  cases hline : Text.encodeUtf8 (line st.world.heap ++ "\n") with
  | error e => exact traceAt_alike_cut hlevel h hline
  | ok bytes =>
  have hline' : Text.encodeUtf8 (line st'.world.heap ++ "\n") = .ok bytes := by
    rw [h.heap]
    exact hline
  obtain ⟨messages, messages', hfirst, hsecond, hsub⟩ := h.traces
  obtain ⟨disk, trace, hrun, hlogged⟩ := traceAt_logged set hlevel hfirst fun _ => hline
  obtain ⟨disk', trace', hrun', hlogged'⟩ := traceAt_logged set hlevel hsecond fun _ => hline'
  rw [hrun, hrun']
  refine .ok ⟨?_, h.scopes, h.closures, h.depth, _, _, hlogged, hlogged', fun hle => ?_⟩
  · change st'.world.withDisk disk' = (st.world.withDisk disk).withDisk disk'
    rw [h.world, World.withDisk_withDisk, World.withDisk_withDisk]
  · rw [h.heap]
    have hboth := (hsub hle).append_right [line st.world.heap]
    have hmore := (hsub hle).trans (List.sublist_append_left messages' [line st.world.heap])
    split_ifs with h₁ h₂ h₂
    · exact hboth
    · omega
    · exact hmore
    · exact hsub hle

theorem traceFunction_eq {params : List Json} (h : strayName? params = none) (name : Json) :
    traceFunction set name params = traceAt set 2 fun _ => "define function " ++ name.plain ++
      "(" ++ ", ".intercalate (params.map Json.plain) ++ ")" := by
  unfold traceFunction
  rw [h]
  by_cases hlevel : 2 ≤ set.traceLevel
  · rw [if_pos hlevel]
  · rw [if_neg hlevel, traceAt, if_neg hlevel]

theorem traceFunction_inStep {params : List Json} (h : strayName? params = none) (name : Json) :
    InStep D (traceFunction (set.withTrace D.first) name params)
      (traceFunction (set.withTrace D.second) name params) := by
  rw [traceFunction_eq h, traceFunction_eq h]
  exact traceAt_inStep Nat.two_pos _

/-! ### Builtins -/

/-- An action that has nothing to do with the disk does not tell the two worlds apart. -/
theorem onWorld_inStep {act : Action α} (h : act.OffDisk) (refused : Refusal → Stop) :
    InStep D (onWorld refused act) (onWorld refused act) := by
  intro st st' hst
  have hact' : act st'.world = Action.onDisk st'.world.disk (act st.world) := by
    conv_lhs => rw [hst.world]
    exact h.same _ _
  have hkept := h.keeps st.world
  unfold onWorld
  dsimp only
  rw [hact']
  cases hact : act st.world with
  | ok a w =>
    rw [hact] at hkept
    exact .ok (hst.change hkept rfl rfl rfl hst.scopes hst.closures hst.depth)
  | error r w =>
    rw [hact] at hkept
    exact .error (hst.change hkept rfl rfl rfl hst.scopes hst.closures hst.depth)

theorem callBuiltin_inStep {name : String}
    (h : ∀ b, set.registry.find? name = some b → Library.IsOffDisk b) (args : List Value) :
    InStep D (callBuiltin (set.withTrace D.first) name args)
      (callBuiltin (set.withTrace D.second) name args) := by
  have hregistry (level : Nat) : (set.withTrace level).registry = set.registry := rfl
  intro st st' hst
  unfold callBuiltin
  rw [hregistry, hregistry]
  cases hb : set.registry.find? name with
  | none => exact inStep_onHeap (onHeap_refuse _) hst
  | some builtin =>
    refine inStep_bind (traceAt_inStep Nat.one_pos _) (fun _ => ?_) hst
    refine inStep_bind (onWorld_inStep (Library.call_offDisk (h builtin hb) args) _) fun v => ?_
    exact inStep_onHeap (newResult_onHeap _)

/-! ### Scopes and functions -/

theorem define_inStep (s : Nat) (name : Json) (v : Value) :
    InStep D (define s name v) (define s name v) := by
  refine inStep_bind (inStep_onHeap (checkName_onHeap name)) fun _ st st' h => ?_
  refine .ok (h.change rfl rfl rfl h.world ?_ h.closures h.depth)
  exact congrArg (·.define s name v) h.scopes

theorem assignName_inStep (s : Nat) (name : Json) (v : Value) :
    InStep D (assignName (set.withTrace D.first) s name v)
      (assignName (set.withTrace D.second) s name v) := by
  refine inStep_bind ?_ fun _ => traceAt_inStep Nat.two_pos _
  refine inStep_bind (inStep_onHeap (checkName_onHeap name)) fun _ st st' h => ?_
  refine .ok (h.change rfl rfl rfl h.world ?_ h.closures h.depth)
  exact congrArg (·.assign s name v) h.scopes

theorem visit_inStep (node : Node) (name : Json) (s : Nat) (item : Value) :
    InStep D (visit (set.withTrace D.first) node name s item)
      (visit (set.withTrace D.second) node name s item) :=
  inStep_bind (define_inStep s name item) fun _ => traceAt_inStep (by decide) _

theorem closureOf_inStep (id : Nat) : InStep D (closureOf id) (closureOf id) := by
  intro st st' h
  change Alike D (.ok (st.closures[id]?.getD default) st) (.ok (st'.closures[id]?.getD default) st')
  rw [h.closures]
  exact .ok h

theorem newFunction_inStep (name : String) (c : Closure) :
    InStep D (newFunction name c) (newFunction name c) := by
  intro st st' h
  unfold newFunction
  have hsize : st'.closures.size = st.closures.size := congrArg Array.size h.closures
  change Alike D (.ok (Value.function st.closures.size name) _)
    (.ok (Value.function st'.closures.size name) _)
  rw [hsize]
  refine .ok (h.change rfl rfl rfl h.world h.scopes ?_ h.depth)
  exact congrArg (·.push c) h.closures

theorem child_inStep (s : Nat) : InStep D (child s) (child s) := by
  intro st st' h
  change Alike D (.ok st.scopes.table.size _) (.ok st'.scopes.table.size _)
  rw [h.scopes]
  exact .ok (h.change rfl rfl rfl h.world rfl h.closures h.depth)

theorem forM_inStep {f : β → Run Unit} (hf : ∀ b, InStep D (f b) (f b)) (bs : List β) :
    InStep D (bs.forM f) (bs.forM f) := by
  induction bs with
  | nil => exact inStep_pure _
  | cons b bs ih => exact inStep_bind (hf b) fun _ => ih

theorem enter_inStep (name : String) (c : Closure) (args : List Value) :
    InStep D (enter (set.withTrace D.first) name c args)
      (enter (set.withTrace D.second) name c args) := by
  intro st st' h
  unfold enter
  rw [get_bind, get_bind, h.depth]
  refine inStep_bind (child_inStep c.scope) (fun inner => ?_) h
  refine inStep_bind (forM_inStep (fun p => define_inStep inner p.1 p.2) _) fun _ => ?_
  exact inStep_bind (traceAt_inStep Nat.one_pos _) fun _ => inStep_pure _

end Evaluator

end Offside
