import Offside.Proofs.Evaluator.Allowance
import Offside.Proofs.Operation

/-!
What a run keeps. Every function that was ever made has a body that can be executed inside a
function, and a call that is over leaves the depth as it was. The actions of scripts keep both,
never fail for lack of fuel, and never blame the tree.
-/

namespace Offside

/-- The body of a function can be executed. -/
def Closure.Good (whiles : Bool) (c : Closure) : Prop :=
  ∀ n ∈ c.body, n.Executable whiles ⟨false, true⟩

def State.Safe (whiles : Bool) (st : State) : Prop := ∀ c ∈ st.closures, c.Good whiles

/-- Without functions there is none whose body could go wrong. -/
theorem State.safe_of_none {whiles : Bool} {st : State} (h : st.closures = #[]) :
    st.Safe whiles := by
  intro c hc
  rw [h] at hc
  cases Array.not_mem_empty c hc

/-- The tree is not to blame for the end of a run. -/
def Stop.Fair : Stop → Prop
  | error e => ¬ e.cause.BlamesTree
  | _ => True

theorem fair_locate {e : RuntimeError} (p : Place) (h : ¬ e.cause.BlamesTree) :
    ¬ (e.locate p).cause.BlamesTree := by
  unfold RuntimeError.locate
  split <;> exact h

namespace Evaluator

open Run

variable {α β : Type} {whiles : Bool} {d : Nat} {st : State} {P : α → Prop} {Q : β → Prop}

structure At (whiles : Bool) (d : Nat) (st : State) : Prop where
  safe : st.Safe whiles
  depth : st.depth = d

theorem At.enterCall (h : At whiles d st) : At whiles (d + 1) st.enterCall :=
  ⟨h.safe, congrArg (· + 1) h.depth⟩

/-- An outcome that keeps the invariant; a result satisfies `P`, and an error is fair. -/
def Meets (whiles : Bool) (d : Nat) (P : α → Prop) : Outcome α → Prop
  | .ok a st => P a ∧ At whiles d st
  | .error e st => e.Fair ∧ At whiles d st

theorem meets_ok {r : Outcome α} {a : α} (h : Meets whiles d P r) (hr : r = .ok a st) :
    P a ∧ At whiles d st := by
  rw [hr] at h
  exact h

theorem meets_error {r : Outcome α} {e : Stop} (h : Meets whiles d P r) (hr : r = .error e st) :
    e.Fair ∧ At whiles d st := by
  rw [hr] at h
  exact h

theorem meets_bind {x : Run β} {f : β → Run α} (hx : Meets whiles d Q (x st))
    (hf : ∀ b st, Q b → At whiles d st → Meets whiles d P (f b st)) :
    Meets whiles d P ((x >>= f) st) := by
  rw [bind_apply]
  cases h : x st with
  | ok b st' =>
    obtain ⟨hb, hst⟩ := meets_ok hx h
    exact hf b st' hb hst
  | error e st' => exact meets_error hx h

theorem meets_located {x : Run α} (p : Place) (h : Meets whiles d P (x st)) :
    Meets whiles d P (Run.located p x st) := by
  unfold Run.located
  split
  · next e st' he =>
    rw [he] at h
    exact ⟨fair_locate p h.1, h.2⟩
  · exact h

/-- The depth of a call is given back, however the call ends. -/
theorem meets_deeper {x : Run α} (h : ∀ st, At whiles (d + 1) st → Meets whiles (d + 1) P (x st))
    (hst : At whiles d st) : Meets whiles d P (Run.deeper x st) := by
  unfold Run.deeper
  have hx := h st.enterCall hst.enterCall
  cases hr : x st.enterCall with
  | ok a st' =>
    obtain ⟨ha, hst⟩ := meets_ok hx hr
    exact ⟨ha, hst.safe, congrArg (· - 1) hst.depth⟩
  | error e st' =>
    obtain ⟨he, hst⟩ := meets_error hx hr
    exact ⟨he, hst.safe, congrArg (· - 1) hst.depth⟩

/-! ### Actions -/

/-- An action that keeps the invariant at depth `d` and has an outcome of its own. -/
def Quiet (whiles : Bool) (d : Nat) (P : α → Prop) (x : Run α) : Prop :=
  ∀ st, At whiles d st → Meets whiles d P (x st) ∧ Fed (x st)

def Always {α : Type} (_ : α) : Prop := True

theorem quiet_pure {a : α} (h : P a) : Quiet whiles d P (pure a) :=
  fun _ hst => ⟨⟨h, hst⟩, nofun⟩

theorem quiet_bind {x : Run β} {f : β → Run α} (hx : Quiet whiles d Q x)
    (hf : ∀ b, Q b → Quiet whiles d P (f b)) : Quiet whiles d P (x >>= f) := by
  intro st hst
  obtain ⟨hm, hfed⟩ := hx st hst
  refine ⟨meets_bind hm fun b st hb hst => (hf b hb st hst).1, ?_⟩
  rw [bind_apply]
  cases h : x st with
  | ok b st' =>
    obtain ⟨hb, hst⟩ := meets_ok hm h
    exact (hf b hb st' hst).2
  | error e st' =>
    rintro _ ⟨⟩
    exact hfed _ h

theorem quiet_located {x : Run α} (p : Place) (h : Quiet whiles d P x) :
    Quiet whiles d P (Run.located p x) := by
  intro st hst
  refine ⟨meets_located p (h st hst).1, ?_⟩
  have hfed := (h st hst).2
  unfold Run.located
  split
  · nofun
  · exact hfed

theorem quiet_refuse {c : Cause} (h : ¬ c.BlamesTree) : Quiet whiles d P (refuse c) :=
  fun _ hst => ⟨⟨h, hst⟩, nofun⟩

theorem quiet_fault (f : Fault) : Quiet whiles d P (fault f) :=
  fun _ hst => ⟨⟨trivial, hst⟩, nofun⟩

theorem quiet_ofOperation {r : Except Trouble α} (h : Operation.Fair r) :
    Quiet whiles d Always (ofOperation r) := by
  rcases r with c | a
  · cases c with
    | cause c => exact quiet_refuse (h c rfl)
    | fault f => exact quiet_fault f
  · exact quiet_pure trivial

theorem quiet_get : Quiet whiles d (At whiles d) (get : Run State) :=
  fun _ hst => ⟨⟨hst, hst⟩, nofun⟩

/-- A change of the state that touches neither functions nor the depth. -/
theorem quiet_modifyGet {f : State → α × State}
    (hf : ∀ st, (f st).2.closures = st.closures ∧ (f st).2.depth = st.depth) :
    Quiet whiles d Always (modifyGet f : Run α) := by
  intro st hst
  refine ⟨⟨trivial, ?_, (hf st).2.trans hst.depth⟩, nofun⟩
  intro c hc
  exact hst.safe c ((hf st).1 ▸ hc)

theorem heap_quiet : Quiet whiles d Always heap :=
  quiet_bind quiet_get fun _ _ => quiet_pure trivial

theorem modify_quiet {f : State → State}
    (hf : ∀ st, (f st).closures = st.closures ∧ (f st).depth = st.depth) :
    Quiet whiles d Always (modify f : Run Unit) :=
  quiet_modifyGet (f := fun st => ((), f st)) hf

theorem place_quiet (node : Node) : Quiet whiles d Always (place node) := by
  unfold place
  split
  · exact quiet_pure trivial
  · exact quiet_fault _

theorem openTrace_quiet : Quiet whiles d Always openTrace := by
  unfold openTrace
  refine quiet_bind quiet_get fun st _ => ?_
  split
  · exact quiet_pure trivial
  · refine quiet_bind quiet_get fun st _ => ?_
    split
    · exact quiet_bind (modify_quiet fun _ => ⟨rfl, rfl⟩) fun _ _ => quiet_pure trivial
    · exact quiet_fault _

theorem writeTrace_quiet (line : String) : Quiet whiles d Always (writeTrace line) := by
  apply quiet_bind openTrace_quiet
  intro t _
  cases Text.encodeUtf8 (line ++ "\n") with
  | ok bytes => exact modify_quiet fun _ => ⟨rfl, rfl⟩
  | error e => exact quiet_fault _

theorem traceAt_quiet (set : Settings) (level : Nat) (line : Heap → String) :
    Quiet whiles d Always (traceAt set level line) := by
  unfold traceAt
  split
  · exact quiet_bind heap_quiet fun h _ => writeTrace_quiet (line h)
  · exact quiet_pure trivial

theorem checkName_quiet (name : Json) : Quiet whiles d Always (checkName name) := by
  unfold checkName
  split
  · exact quiet_fault _
  · exact quiet_pure trivial

theorem lookUp_quiet (s : Nat) (name : Json) : Quiet whiles d Always (lookUp s name) := by
  unfold lookUp
  refine quiet_bind (checkName_quiet _) fun _ _ => quiet_bind quiet_get fun st _ => ?_
  split
  · exact quiet_pure trivial
  · exact quiet_refuse id

theorem define_quiet (s : Nat) (name : Json) (v : Value) :
    Quiet whiles d Always (define s name v) :=
  quiet_bind (checkName_quiet _) fun _ _ => modify_quiet fun _ => ⟨rfl, rfl⟩

theorem assignName_quiet (set : Settings) (s : Nat) (name : Json) (v : Value) :
    Quiet whiles d Always (assignName set s name v) := by
  refine quiet_bind (Q := Always) ?_ fun _ _ => traceAt_quiet _ _ _
  exact quiet_bind (checkName_quiet _) fun _ _ => modify_quiet fun _ => ⟨rfl, rfl⟩

theorem booleanAt_quiet (p : Place) (test : Test) (v : Value) :
    Quiet whiles d Always (booleanAt p test v) :=
  quiet_located p (quiet_ofOperation (Operation.boolean_fair test v))

theorem newResult_quiet (v : Value) : Quiet whiles d Always (newResult v) :=
  quiet_modifyGet fun _ => ⟨rfl, rfl⟩

theorem applyBinary_quiet {op : String} (hop : op ∈ binaryOperators) (hand : op ≠ "and")
    (hor : op ≠ "or") (a b : Value) : Quiet whiles d Always (applyBinary op a b) :=
  quiet_bind heap_quiet fun h _ =>
    quiet_bind (quiet_ofOperation (Operation.binary_fair hop hand hor h a b)) fun v _ =>
      newResult_quiet v

theorem applyUnary_quiet {op : String} (hop : op ∈ ["-", "not"]) (v : Value) :
    Quiet whiles d Always (applyUnary op v) :=
  quiet_bind (quiet_ofOperation (Operation.unary_fair hop v)) fun v _ => newResult_quiet v

theorem readItem_quiet (target index : Value) : Quiet whiles d Always (readItem target index) :=
  quiet_bind heap_quiet fun h _ => quiet_ofOperation (Operation.getItem_fair h target index)

theorem modifyHeap_quiet (f : Heap → Heap) : Quiet whiles d Always (modifyHeap f) :=
  modify_quiet fun _ => ⟨rfl, rfl⟩

theorem writeItem_quiet (container key v : Value) :
    Quiet whiles d Always (writeItem container key v) :=
  quiet_bind heap_quiet fun h _ =>
    quiet_bind (quiet_ofOperation (Operation.itemSetting_fair h container key v)) fun f _ =>
      modifyHeap_quiet f

theorem deleteItem_quiet (container key : Value) :
    Quiet whiles d Always (deleteItem container key) :=
  quiet_bind heap_quiet fun h _ =>
    quiet_bind (quiet_ofOperation (Operation.itemDeletion_fair h container key)) fun f _ =>
      modifyHeap_quiet f

theorem itemsOf_quiet (v : Value) : Quiet whiles d Always (itemsOf v) :=
  quiet_bind heap_quiet fun h _ => quiet_ofOperation (Operation.iterationItems_fair h v)

theorem checkKey_quiet (p : Place) (k : Value) :
    Quiet whiles d Always (Run.located p (ofOperation (Operation.checkKey k))) :=
  quiet_located p (quiet_ofOperation (Operation.checkKey_fair k))

theorem newList_quiet (items : List Value) : Quiet whiles d Always (newList items) :=
  quiet_modifyGet fun _ => ⟨rfl, rfl⟩

theorem newMapping_quiet (m : Mapping) : Quiet whiles d Always (newMapping m) :=
  quiet_modifyGet fun _ => ⟨rfl, rfl⟩

theorem bindMethod_quiet (set : Settings) (target : Value) (name : Json) :
    Quiet whiles d Always (bindMethod set target name) := by
  unfold bindMethod
  dsimp only
  split
  · split
    · exact quiet_pure trivial
    · exact quiet_refuse id
  · exact quiet_refuse id

/-- The one action that makes a function. -/
theorem newFunction_quiet (name : String) {c : Closure} (hc : c.Good whiles) :
    Quiet whiles d Always (newFunction name c) := by
  intro st hst
  refine ⟨⟨trivial, ?_, hst.depth⟩, nofun⟩
  intro c' hc'
  rcases Array.mem_push.mp hc' with hc' | rfl
  · exact hst.safe c' hc'
  · exact hc

theorem strayName_none {params : List Json} (h : ∀ x ∈ params, ∃ name : String, x = name) :
    strayName? params = none := by
  rw [strayName?, List.findSome?_eq_none_iff]
  rintro ⟨x, i⟩ hx
  obtain ⟨name, rfl⟩ := h x (List.fst_mem_of_mem_zipIdx hx)
  rfl

theorem traceFunction_quiet (set : Settings) (name : Json) (params : List Json) :
    Quiet whiles d Always (traceFunction set name params) := by
  unfold traceFunction
  split
  · split
    · exact quiet_fault _
    · exact traceAt_quiet _ _ _
  · exact quiet_pure trivial

theorem visit_quiet (set : Settings) (node : Node) (name : Json) (s : Nat) (item : Value) :
    Quiet whiles d Always (visit set node name s item) :=
  quiet_bind (define_quiet _ _ _) fun _ _ => traceAt_quiet _ _ _

/-! ### Actions of calls -/

theorem default_good : (default : Closure).Good whiles := nofun

theorem closureOf_quiet (id : Nat) : Quiet whiles d (Closure.Good whiles) (closureOf id) := by
  refine quiet_bind quiet_get fun st hst => quiet_pure ?_
  cases hc : st.closures[id]? with
  | none => exact default_good
  | some c => exact hst.safe c (Array.mem_of_getElem? hc)

theorem checkArity_quiet (name : String) (c : Closure) (args : List Value) :
    Quiet whiles d Always (checkArity name c args) := by
  unfold checkArity
  split
  · exact quiet_refuse id
  · exact quiet_pure trivial

/-- A call that gets past the check is within the limit. -/
theorem checkDepth_quiet (limit : Int) (name : String) :
    Quiet whiles d (fun _ => d < limit) (checkDepth limit name) := by
  refine quiet_bind quiet_get fun st hst => ?_
  have hd := hst.depth
  split
  · exact quiet_refuse id
  · exact quiet_pure (by omega)

theorem forM_quiet {f : β → Run Unit} (hf : ∀ b, Quiet whiles d Always (f b)) (bs : List β) :
    Quiet whiles d Always (bs.forM f) := by
  induction bs with
  | nil => exact quiet_pure trivial
  | cons b bs ih => exact quiet_bind (hf b) fun _ _ => ih

theorem enter_quiet (set : Settings) (name : String) (c : Closure) (args : List Value) :
    Quiet whiles d Always (enter set name c args) := by
  unfold enter
  refine quiet_bind quiet_get fun st _ => ?_
  refine quiet_bind (quiet_modifyGet fun _ => ⟨rfl, rfl⟩) fun inner _ => ?_
  refine quiet_bind (forM_quiet (fun _ => define_quiet _ _ _) _) fun _ _ => ?_
  exact quiet_bind (traceAt_quiet _ _ _) fun _ _ => quiet_pure trivial

/-- A builtin acts on the world only, and its failures are its own. -/
theorem onWorld_quiet {refused : Refusal → Stop} (act : Action α)
    (h : ∀ r, (refused r).Fair ∧ ¬ Starved (refused r)) :
    Quiet whiles d Always (onWorld refused act) := by
  intro st hst
  unfold onWorld
  dsimp only
  cases act st.world with
  | ok a w => exact ⟨⟨trivial, hst.safe, hst.depth⟩, nofun⟩
  | error r w =>
    refine ⟨⟨(h r).1, hst.safe, hst.depth⟩, ?_⟩
    intro st' he
    exact (h r).2 (EStateM.Result.error.inj he).1

theorem refusedBy_fair (name : String) (r : Refusal) :
    (refusedBy name r).Fair ∧ ¬ Starved (refusedBy name r) := by
  unfold refusedBy
  split
  · exact ⟨id, nofun⟩
  · split
    · exact ⟨id, nofun⟩
    · exact ⟨trivial, nofun⟩

theorem callBuiltin_quiet (set : Settings) (name : String) (args : List Value) :
    Quiet whiles d Always (callBuiltin set name args) := by
  unfold callBuiltin
  split
  · exact quiet_refuse id
  · refine quiet_bind (traceAt_quiet _ _ _) fun _ _ => ?_
    exact quiet_bind (onWorld_quiet _ (refusedBy_fair name)) fun _ _ => newResult_quiet _

end Evaluator

end Offside
