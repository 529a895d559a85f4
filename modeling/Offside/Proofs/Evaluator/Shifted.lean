import Offside.Proofs.Evaluator.Call
import Offside.Proofs.Evaluator.Twin
import Offside.Proofs.Lowered

/-!
The same program elsewhere. Where a node stands is seen in the places of errors and in the trace
only. Of two states whose functions are the same but for where their bodies stand, the disks may
be different if a trace is written; every action of the evaluator that leaves the disk alone but
for the trace takes such states to such states, and so does any action if no trace is written.
-/

namespace Offside

/-- A fault but for where surrogates stand: in a line of the trace that depends on the place that
the line names. -/
def Fault.bare : Fault → Fault
  | .surrogates e => .surrogates e.bare
  | f => f

/-- What is left of a stop without its place. -/
def Stop.bare : Stop → Stop
  | .error e => .error { e with place := .unknown }
  | .fault f => .fault f.bare
  | .starved => .starved

/-- The same function but for where its body stands. -/
def Closure.Shifted (c c' : Closure) : Prop :=
  ∃ f : Relocation, c' = { c with body := Node.movedList f c.body }

namespace Evaluator

open Run

/-- The trace can be written: its file is where it is looked for, and the one that is open is a
file. -/
structure TraceInPlace (st : State) : Prop where
  found : ∃ i, st.world.disk.resolve traceFile = .ok i ∧ st.world.disk.isDirectory i = false
  opened : ∀ t, st.trace = some t → st.world.disk.isDirectory t.file = false

/-- Of two states, the bodies of the functions may stand elsewhere, and if there is a trace the
disks may be different. -/
structure Shifted (set : Settings) (st st' : State) : Prop where
  world : st'.world = st.world.withDisk st'.world.disk
  scopes : st'.scopes = st.scopes
  count : st'.closures.size = st.closures.size
  closures : ∀ id, (st.closure id).Shifted (st'.closure id)
  depth : st'.depth = st.depth
  untraced : set.traceLevel = 0 → st'.world.disk = st.world.disk
  traced : 0 < set.traceLevel → TraceInPlace st ∧ TraceInPlace st'

variable {set : Settings} {α α' β β' : Type} {S : α → α' → Prop} {Q : β → β' → Prop}
  {st st' now now' : State} {c c' : Closure}

theorem Shifted.heap (h : Shifted set st st') : st'.world.heap = st.world.heap := by
  rw [h.world, World.withDisk_heap]

theorem Shifted.sight (h : Shifted set st st') : st'.sight = st.sight := by
  rw [State.sight, State.sight, h.heap, h.scopes, h.depth]

theorem TraceInPlace.change (h : TraceInPlace st) (hdisk : now.world.disk = st.world.disk)
    (htrace : now.trace = st.trace) : TraceInPlace now := by
  constructor
  · rw [hdisk]
    exact h.found
  · rw [hdisk, htrace]
    exact h.opened

theorem shifted_refl (h : 0 < set.traceLevel → TraceInPlace st) : Shifted set st st := by
  refine ⟨rfl, rfl, rfl, fun i => ⟨.none, ?_⟩, rfl, fun _ => rfl, fun hlevel => ⟨h hlevel, h hlevel⟩⟩
  exact congrArg (fun body => { st.closure i with body }) (Node.movedList_id _).symm

/-- A change that leaves the disk, the trace and the functions of both states alone. -/
theorem Shifted.change (h : Shifted set st st') (hdisk : now.world.disk = st.world.disk)
    (htrace : now.trace = st.trace) (htrace' : now'.trace = st'.trace)
    (hworld : now'.world = now.world.withDisk st'.world.disk)
    (hscopes : now'.scopes = now.scopes) (hclosures : now.closures = st.closures)
    (hclosures' : now'.closures = st'.closures) (hdepth : now'.depth = now.depth) :
    Shifted set now now' := by
  have hdisk' : now'.world.disk = st'.world.disk := by
    rw [hworld, World.withDisk_disk]
  refine ⟨?_, hscopes, ?_, ?_, hdepth, ?_, ?_⟩
  · rw [hdisk', hworld]
  · rw [hclosures, hclosures']
    exact h.count
  · intro id
    unfold State.closure
    rw [hclosures, hclosures']
    exact h.closures id
  · intro hlevel
    rw [hdisk, hdisk']
    exact h.untraced hlevel
  · intro hlevel
    obtain ⟨hst, hst'⟩ := h.traced hlevel
    exact ⟨hst.change hdisk htrace, hst'.change hdisk' htrace'⟩

/-- The same outcome but for places, the disk and the trace. -/
inductive Matches (set : Settings) (S : α → α' → Prop) : Outcome α → Outcome α' → Prop where
  | ok {a : α} {a' : α'} {st st' : State} : S a a' → Shifted set st st' →
      Matches set S (.ok a st) (.ok a' st')
  | error {e e' : Stop} {st st' : State} : e'.bare = e.bare → Shifted set st st' →
      Matches set S (.error e st) (.error e' st')

theorem matches_bind {x : Run β} {x' : Run β'} {f : β → Run α} {f' : β' → Run α'}
    (hx : Matches set Q (x st) (x' st'))
    (hf : ∀ b b' now now', x st = .ok b now → Q b b' → Shifted set now now' →
      Matches set S (f b now) (f' b' now')) : Matches set S ((x >>= f) st) ((x' >>= f') st') := by
  rw [bind_apply, bind_apply]
  generalize hr : x st = r at hx
  generalize x' st' = r' at hx
  cases hx with
  | ok hq h => exact hf _ _ _ _ hr hq h
  | error he h => exact .error he h

/-- An error may get its place from another node. -/
theorem matches_located {x : Run α} {x' : Run α'} {p p' : Place}
    (h : Matches set S (x st) (x' st')) :
    Matches set S (Run.located p x st) (Run.located p' x' st') := by
  have hlocate (e : RuntimeError) (p : Place) :
      (Stop.error (e.locate p)).bare = (Stop.error e).bare := by
    unfold RuntimeError.locate
    split
    · rfl
    · rfl
  unfold Run.located
  generalize x st = r at h
  generalize x' st' = r' at h
  cases h with
  | ok hs h => exact .ok hs h
  | @error e e' _ _ he h =>
    cases e with
    | error e =>
      cases e' with
      | error e' =>
        apply Matches.error _ h
        rw [hlocate, hlocate, he]
      | _ => cases he
    | fault f =>
      cases e' with
      | fault f' => exact .error he h
      | _ => cases he
    | starved =>
      cases e' with
      | starved => exact .error he h
      | _ => cases he

theorem Shifted.deeper (h : Shifted set st st') : Shifted set st.enterCall st'.enterCall :=
  h.change rfl rfl rfl h.world h.scopes rfl rfl (congrArg (· + 1) h.depth)

theorem matches_deeper {x : Run α} {x' : Run α'}
    (h : Matches set S (x st.enterCall) (x' st'.enterCall)) :
    Matches set S (Run.deeper x st) (Run.deeper x' st') := by
  have hleave {now now' : State} (h : Shifted set now now') :
      Shifted set now.leaveCall now'.leaveCall :=
    h.change rfl rfl rfl h.world h.scopes rfl rfl (congrArg (· - 1) h.depth)
  unfold Run.deeper
  generalize x st.enterCall = r at h
  generalize x' st'.enterCall = r' at h
  cases h with
  | ok hs h => exact .ok hs (hleave h)
  | error he h => exact .error he (hleave h)

/-- From states that differ so, two actions come to outcomes that differ so. -/
def InTandem (set : Settings) (S : α → α' → Prop) (x : Run α) (x' : Run α') : Prop :=
  ∀ {st st'}, Shifted set st st' → Matches set S (x st) (x' st')

theorem inTandem_bind {x : Run β} {x' : Run β'} {f : β → Run α} {f' : β' → Run α'}
    (hx : InTandem set Q x x') (hf : ∀ b b', Q b b' → InTandem set S (f b) (f' b')) :
    InTandem set S (x >>= f) (x' >>= f') :=
  fun h => matches_bind (hx h) fun b b' _ _ _ hq hnow => hf b b' hq hnow

theorem inTandem_then {x x' : Run β} {f : β → Run α} {f' : β → Run α'}
    (hx : InTandem set Eq x x') (hf : ∀ b, InTandem set S (f b) (f' b)) :
    InTandem set S (x >>= f) (x' >>= f') := by
  apply inTandem_bind hx
  rintro b _ rfl
  exact hf b

theorem inTandem_pure {a : α} {a' : α'} (h : S a a') :
    InTandem set S (pure a : Run α) (pure a' : Run α') :=
  fun hst => .ok h hst

theorem inTandem_located {x : Run α} {x' : Run α'} (p p' : Place) (h : InTandem set S x x') :
    InTandem set S (Run.located p x) (Run.located p' x') :=
  fun hst => matches_located (h hst)

theorem inTandem_onHeap {x : Run α} (h : OnHeap x) : InTandem set Eq x x := by
  obtain ⟨f, -, hx⟩ := h
  intro st st' hst
  rw [hx, hx, hst.sight]
  have hheap (h : Heap) : Shifted set (withHeap st h) (withHeap st' h) := by
    refine hst.change rfl rfl rfl ?_ hst.scopes rfl rfl hst.depth
    unfold withHeap
    rw [hst.world]
    rfl
  cases f st.sight with
  | mk r h =>
    cases r with
    | ok a => exact .ok rfl (hheap h)
    | error e => exact .error rfl (hheap h)

/-! ### The trace -/

theorem TraceInPlace.openTrace (h : TraceInPlace st) :
    ∃ t, Offside.openTrace st = .ok t { st with trace := some t } ∧
      st.world.disk.isDirectory t.file = false := by
  unfold Offside.openTrace
  rw [get_bind]
  cases htrace : st.trace with
  | some t =>
    have hself : { st with trace := some t } = st := by
      rw [← htrace]
    refine ⟨t, ?_, h.opened t htrace⟩
    rw [hself]
    rfl
  | none =>
    obtain ⟨i, hfound, hfile⟩ := h.found
    refine ⟨⟨i, none⟩, ?_, hfile⟩
    dsimp only
    rw [get_bind, traceFile_plain.openToWrite_found hfound hfile]
    rfl

theorem TraceInPlace.write (h : TraceInPlace st) {line : String} {bytes : ByteArray}
    (hline : Text.encodeUtf8 (line ++ "\n") = .ok bytes) :
    ∃ disk trace, writeTrace line st = .ok () { st with world := st.world.withDisk disk, trace } ∧
      TraceInPlace { st with world := st.world.withDisk disk, trace } := by
  obtain ⟨t, hopen, hfile⟩ := h.openTrace
  obtain ⟨i, hfound, hregular⟩ := h.found
  have hwrite : ∃ text trace, writeTrace line st = .ok ()
      { st with
        world := st.world.withDisk (st.world.disk.setInode t.file (.file text)), trace } ∧
      ∀ t', trace = some t' → t'.file = t.file := by
    unfold writeTrace
    rw [bind_apply, hopen, hline]
    refine ⟨_, _, rfl, ?_⟩
    rintro _ ⟨⟩
    rfl
  obtain ⟨text, trace, hwrite, htrace⟩ := hwrite
  have htree := Disk.setInode_sameTree hfile text
  refine ⟨_, _, hwrite, ⟨i, (htree.resolve traceFile).trans hfound,
    (htree.directories i).trans hregular⟩, ?_⟩
  intro t' ht'
  rw [htrace t' ht']
  exact (htree.directories t.file).trans hfile

theorem TraceInPlace.refuse (h : TraceInPlace st) {line : String} {e : Text.SurrogateError}
    (hline : Text.encodeUtf8 (line ++ "\n") = .error e) :
    ∃ trace, writeTrace line st = .error (.fault (.surrogates e)) { st with trace } ∧
      TraceInPlace { st with trace } := by
  obtain ⟨t, hopen, hfile⟩ := h.openTrace
  refine ⟨some t, ?_, h.found, ?_⟩
  · unfold writeTrace
    rw [bind_apply, hopen, hline]
    rfl
  · rintro _ ⟨⟩
    exact hfile

/-- Whatever is written to the trace, if it has the same surrogates. -/
theorem traceAt_inTandem {level : Nat} (hlevel : 0 < level) {line line' : Heap → String}
    (hlines : ∀ h, Text.SameSurrogates (line h ++ "\n") (line' h ++ "\n")) :
    InTandem set Eq (traceAt set level line) (traceAt set level line') := by
  intro st st' h
  unfold traceAt
  by_cases htraced : level ≤ set.traceLevel
  · have hpos : 0 < set.traceLevel := hlevel.trans_le htraced
    obtain ⟨hst, hst'⟩ := h.traced hpos
    rw [if_pos htraced, if_pos htraced]
    change Matches set Eq (writeTrace (line st.world.heap) st)
      (writeTrace (line' st'.world.heap) st')
    rw [h.heap]
    rcases (hlines st.world.heap).encodeUtf8 with ⟨bytes, bytes', hb, hb'⟩ | ⟨e, e', he, he', hbare⟩
    · obtain ⟨disk, trace, hwrite, hplace⟩ := hst.write hb
      obtain ⟨disk', trace', hwrite', hplace'⟩ := hst'.write hb'
      rw [hwrite, hwrite']
      refine .ok rfl ⟨?_, h.scopes, h.count, h.closures, h.depth, ?_, fun _ => ⟨hplace, hplace'⟩⟩
      · change st'.world.withDisk disk' = (st.world.withDisk disk).withDisk disk'
        rw [h.world, World.withDisk_withDisk, World.withDisk_withDisk]
      · intro hzero
        omega
    · obtain ⟨trace, hrefused, hplace⟩ := hst.refuse he
      obtain ⟨trace', hrefused', hplace'⟩ := hst'.refuse he'
      rw [hrefused, hrefused']
      refine .error ?_ ⟨h.world, h.scopes, h.count, h.closures, h.depth, h.untraced,
        fun _ => ⟨hplace, hplace'⟩⟩
      exact congrArg (fun e => Stop.fault (.surrogates e)) hbare
  · rw [if_neg htraced, if_neg htraced]
    exact .ok rfl h

theorem traceFunction_inTandem (name : Json) (params : List Json) :
    InTandem set Eq (traceFunction set name params) (traceFunction set name params) := by
  unfold traceFunction
  split
  · split
    · exact inTandem_onHeap (onHeap_fault _)
    · exact traceAt_inTandem Nat.two_pos fun _ => .refl _
  · exact inTandem_pure rfl

/-! ### Builtins -/

theorem onWorld_inTandem {act : Action α} (h : 0 < set.traceLevel → act.OffDisk)
    (refused : Refusal → Stop) : InTandem set Eq (onWorld refused act) (onWorld refused act) := by
  intro st st' hst
  by_cases hlevel : set.traceLevel = 0
  · have hworld : st'.world = st.world := by
      rw [hst.world, hst.untraced hlevel]
      rfl
    have hsame (w : World) : Shifted set { st with world := w } { st' with world := w } :=
      ⟨rfl, hst.scopes, hst.count, hst.closures, hst.depth, fun _ => rfl,
        fun hpos => absurd hlevel hpos.ne'⟩
    unfold onWorld
    dsimp only
    rw [hworld]
    cases act st.world with
    | ok a w => exact .ok rfl (hsame w)
    | error r w => exact .error rfl (hsame w)
  · have hact := h (Nat.pos_of_ne_zero hlevel)
    have hact' : act st'.world = Action.onDisk st'.world.disk (act st.world) := by
      conv_lhs => rw [hst.world]
      exact hact.same _ _
    have hkept := hact.keeps st.world
    unfold onWorld
    dsimp only
    rw [hact']
    cases hr : act st.world with
    | ok a w =>
      rw [hr] at hkept
      exact .ok rfl (hst.change hkept rfl rfl rfl hst.scopes rfl rfl hst.depth)
    | error r w =>
      rw [hr] at hkept
      exact .error rfl (hst.change hkept rfl rfl rfl hst.scopes rfl rfl hst.depth)

theorem callBuiltin_inTandem {name : String}
    (h : 0 < set.traceLevel → ∀ b, set.registry.find? name = some b → Library.IsOffDisk b)
    (args : List Value) :
    InTandem set Eq (callBuiltin set name args) (callBuiltin set name args) := by
  unfold callBuiltin
  cases hb : set.registry.find? name with
  | none => exact inTandem_onHeap (onHeap_refuse _)
  | some builtin =>
    have hcall (hlevel : 0 < set.traceLevel) : (builtin.call args).OffDisk :=
      Library.call_offDisk (h hlevel builtin hb) args
    apply inTandem_then (traceAt_inTandem Nat.one_pos fun _ => .refl _)
    intro _
    apply inTandem_then (onWorld_inTandem hcall _)
    intro v
    exact inTandem_onHeap (newResult_onHeap _)

/-! ### Scopes and functions -/

theorem define_inTandem (s : Nat) (name : Json) (v : Value) :
    InTandem set Eq (define s name v) (define s name v) := by
  apply inTandem_then (inTandem_onHeap (checkName_onHeap name))
  intro _ st st' h
  refine .ok rfl (h.change rfl rfl rfl h.world ?_ rfl rfl h.depth)
  exact congrArg (·.define s name v) h.scopes

theorem assignName_inTandem (s : Nat) (name : Json) (v : Value) :
    InTandem set Eq (assignName set s name v) (assignName set s name v) := by
  refine inTandem_then ?_ fun _ => traceAt_inTandem Nat.two_pos fun _ => .refl _
  apply inTandem_then (inTandem_onHeap (checkName_onHeap name))
  intro _ st st' h
  refine .ok rfl (h.change rfl rfl rfl h.world ?_ rfl rfl h.depth)
  exact congrArg (·.assign s name v) h.scopes

/-- A line that begins with the place of a node has the same surrogates when the node is moved. -/
theorem line_sameSurrogates (f : Relocation) (node : Node) (text : String) :
    Text.SameSurrogates (placeText node ++ text) (placeText (node.moved f) ++ text) := by
  unfold placeText Node.pos
  rw [String.append_assoc, String.append_assoc, Node.pos?_moved]
  cases node.pos? with
  | none => exact .refl _
  | some p => exact f.discreet p _

/-- A line that tells of a node, here and elsewhere. -/
theorem traceLine_inTandem {level : Nat} (hlevel : 0 < level) (f : Relocation) (node : Node)
    {line line' : Heap → String} (text : Heap → String)
    (hline : ∀ h, line h = placeText node ++ text h)
    (hline' : ∀ h, line' h = placeText (node.moved f) ++ text h) :
    InTandem set Eq (traceAt set level line) (traceAt set level line') := by
  apply traceAt_inTandem hlevel
  intro h
  rw [hline, hline', String.append_assoc, String.append_assoc]
  exact line_sameSurrogates f node _

theorem visit_inTandem (f : Relocation) (node : Node) (name : Json) (s : Nat) (item : Value) :
    InTandem set Eq (visit set node name s item) (visit set (node.moved f) name s item) := by
  apply inTandem_then (define_inTandem s name item)
  intro _
  apply traceLine_inTandem (by decide) f node fun h => "for " ++ (name.plain ++ (" = " ++ h.display item))
  · intro h
    simp only [String.append_assoc]
  · intro h
    simp only [String.append_assoc]

/-- What a node stands at is moved with the node. -/
theorem place_inTandem (f : Place → Place) (node : Node) :
    InTandem set (fun p p' => p' = f p) (place node) (place (node.moved f)) := by
  intro st st' h
  unfold place
  cases node with
  | hole => exact .error rfl h
  | _ => exact .ok rfl h

theorem closureOf_inTandem (id : Nat) :
    InTandem set Closure.Shifted (closureOf id) (closureOf id) :=
  fun h => .ok (h.closures id) h

theorem newFunction_inTandem (name : String) (hc : c.Shifted c') :
    InTandem set Eq (newFunction name c) (newFunction name c') := by
  intro st st' h
  unfold newFunction
  change Matches set Eq (.ok (Value.function st.closures.size name) _)
    (.ok (Value.function st'.closures.size name) _)
  apply Matches.ok
  · rw [h.count]
  · refine ⟨h.world, h.scopes, ?_, ?_, h.depth, h.untraced, fun hlevel => ?_⟩
    · rw [Array.size_push, Array.size_push, h.count]
    · intro id
      have hold := h.closures id
      unfold State.closure at hold ⊢
      dsimp only
      rw [Array.getElem?_push, Array.getElem?_push, h.count]
      by_cases hid : id = st.closures.size
      · rw [if_pos hid, if_pos hid]
        exact hc
      · rw [if_neg hid, if_neg hid]
        exact hold
    · obtain ⟨hst, hst'⟩ := h.traced hlevel
      exact ⟨hst.change rfl rfl, hst'.change rfl rfl⟩

theorem child_inTandem (s : Nat) : InTandem set Eq (child s) (child s) := by
  intro st st' h
  change Matches set Eq (.ok st.scopes.table.size _) (.ok st'.scopes.table.size _)
  rw [h.scopes]
  exact .ok rfl (h.change rfl rfl rfl h.world rfl rfl rfl h.depth)

theorem forM_inTandem {f : β → Run Unit} (hf : ∀ b, InTandem set Eq (f b) (f b)) (bs : List β) :
    InTandem set Eq (bs.forM f) (bs.forM f) := by
  induction bs with
  | nil => exact inTandem_pure rfl
  | cons b bs ih => exact inTandem_then (hf b) fun _ => ih

theorem enter_inTandem (name : String) (args : List Value) (hc : c.Shifted c') :
    InTandem set Eq (enter set name c args) (enter set name c' args) := by
  obtain ⟨f, rfl⟩ := hc
  intro st st' h
  unfold enter
  rw [get_bind, get_bind, h.depth]
  refine inTandem_then (child_inTandem c.scope) (fun inner => ?_) h
  apply inTandem_then (forM_inTandem (fun p => define_inTandem inner p.1 p.2) _)
  intro _
  exact inTandem_then (traceAt_inTandem Nat.one_pos fun _ => .refl _) fun _ => inTandem_pure rfl

end Evaluator

end Offside
