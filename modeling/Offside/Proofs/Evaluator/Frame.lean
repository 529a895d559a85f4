import Offside.Proofs.Evaluator.OnHeap
import Offside.Proofs.Evaluator.Reach
import Offside.Proofs.Scope

/-!
What runs leave alone. A frame holds scopes that were there before, some of which get no new names,
and a condition on the nodes of every function; the actions of the evaluator keep it at any depth,
and they place an error nowhere but at a spot of the node they stand in.
-/

namespace Offside

/-- The error of a run has no place, or one of the given places. -/
def Stop.In (spots : Set Place) (e : Stop) : Prop :=
  ∀ err, e = .error err → err.place.isKnown = true → err.place ∈ spots

theorem Stop.in_of_unplaced {e : Stop} {spots : Set Place} (h : ¬ e.IsPlaced) : e.In spots := by
  rintro err rfl hknown
  exact absurd hknown h

namespace Evaluator

open Run

/-- The scopes of `base` with a number below `low` get no new names, and every function is made of
nodes that satisfy `node`. -/
structure Frame where
  base : Scopes
  low : Nat
  low_le : low ≤ base.table.size
  node : Node → Prop
  /-- A lambda becomes a function that returns its body. -/
  lambda : ∀ {p : Place} {b : Node}, b.pos? = some p → node b → node (.returnStmt p b)

/-- Statements whose nodes all satisfy the condition of a frame. -/
def Frame.Allows (F : Frame) (ns : List Node) : Prop := ∀ n ∈ ns, n.All F.node

structure Frame.Kept (F : Frame) (d : Nat) (st : State) : Prop where
  depth : st.depth = d
  scopes : F.base.Extends F.low st.scopes
  functions : ∀ c ∈ st.closures, F.Allows c.body

/-- The frame around these scopes with no condition on nodes. -/
def Frame.around (scopes : Scopes) (low : Nat) (h : low ≤ scopes.table.size) : Frame where
  base := scopes
  low := low
  low_le := h
  node _ := True
  lambda _ _ := trivial

/-- A frame around the scopes of a state is kept there if it allows the functions. -/
theorem Frame.kept_here {F : Frame} {st : State} (hbase : F.base = st.scopes)
    (h : ∀ c ∈ st.closures, F.Allows c.body) : F.Kept st.depth st where
  depth := rfl
  scopes := hbase ▸ Scopes.extends_refl _ _
  functions := h

theorem Frame.around_kept (st : State) {low : Nat} (h : low ≤ st.scopes.table.size) :
    (Frame.around st.scopes low h).Kept st.depth st :=
  Frame.kept_here rfl fun _ _ _ _ _ _ => trivial

/-- The frame around these scopes with a condition on nodes alone. -/
def Frame.ofNodes (node : Node → Prop)
    (lambda : ∀ {p : Place} {b : Node}, b.pos? = some p → node b → node (.returnStmt p b))
    (scopes : Scopes) : Frame where
  base := scopes
  low := 0
  low_le := Nat.zero_le _
  node := node
  lambda := lambda

theorem Frame.Kept.deeper {F : Frame} {d : Nat} {st : State} (h : F.Kept d st) :
    F.Kept (d + 1) st.enterCall :=
  ⟨congrArg (· + 1) h.depth, h.scopes, h.functions⟩

variable {α β : Type} {F : Frame} {spots : Set Place} {d : Nat} {st : State} {P : α → Prop}
  {Q : β → Prop}

/-- The outcome keeps the frame at depth `d`; a result satisfies `P`, and an error is at a spot. -/
def Preserved (F : Frame) (spots : Set Place) (d : Nat) (P : α → Prop) : Outcome α → Prop
  | .ok a st => P a ∧ F.Kept d st
  | .error e st => e.In spots ∧ F.Kept d st

/-- An action that keeps the frame at depth `d`. -/
def Keeps (F : Frame) (spots : Set Place) (d : Nat) (P : α → Prop) (x : Run α) : Prop :=
  ∀ st, F.Kept d st → Preserved F spots d P (x st)

/-- The state that an outcome leaves. -/
def stateAfter : Outcome α → State
  | .ok _ st => st
  | .error _ st => st

theorem preserved_ok {r : Outcome α} {a : α} (h : Preserved F spots d P r) (hr : r = .ok a st) :
    P a ∧ F.Kept d st := by
  rw [hr] at h
  exact h

theorem preserved_error {r : Outcome α} {e : Stop} (h : Preserved F spots d P r)
    (hr : r = .error e st) : e.In spots ∧ F.Kept d st := by
  rw [hr] at h
  exact h

theorem preserved_kept {r : Outcome α} (h : Preserved F spots d P r) : F.Kept d (stateAfter r) := by
  cases r with
  | ok a st => exact h.2
  | error e st => exact h.2

theorem preserved_mono {r : Outcome α} {more : Set Place} {R : α → Prop}
    (h : Preserved F spots d P r) (hspots : spots ⊆ more) (hR : ∀ a, P a → R a) :
    Preserved F more d R r := by
  cases r with
  | ok a st => exact ⟨hR a h.1, h.2⟩
  | error e st => exact ⟨fun err he hknown => hspots (h.1 err he hknown), h.2⟩

theorem preserved_bind {x : Run β} {f : β → Run α} (hx : Preserved F spots d Q (x st))
    (hf : ∀ b st, Q b → F.Kept d st → Preserved F spots d P (f b st)) :
    Preserved F spots d P ((x >>= f) st) := by
  rw [bind_apply]
  cases h : x st with
  | ok b st' =>
    obtain ⟨hb, hst⟩ := preserved_ok hx h
    exact hf b st' hb hst
  | error e st' => exact preserved_error hx h

theorem preserved_located {x : Run α} {p : Place} (hp : p ∈ spots)
    (h : Preserved F spots d P (x st)) : Preserved F spots d P (Run.located p x st) := by
  unfold Run.located
  split
  · next e st' he =>
    obtain ⟨hin, hst⟩ := preserved_error h he
    refine ⟨?_, hst⟩
    rintro _ ⟨⟩ hknown
    unfold RuntimeError.locate at hknown ⊢
    by_cases hk : e.place.isKnown = true
    · rw [if_pos hk] at hknown ⊢
      exact hin e rfl hknown
    · rw [if_neg hk]
      exact hp
  · exact h

/-- A call gives its level back, however it ends. -/
theorem preserved_deeper {x : Run α}
    (h : ∀ st, F.Kept (d + 1) st → Preserved F spots (d + 1) P (x st)) (hst : F.Kept d st) :
    Preserved F spots d P (Run.deeper x st) := by
  have hx := h _ hst.deeper
  unfold Run.deeper
  cases hr : x st.enterCall with
  | ok a st' =>
    obtain ⟨ha, hst⟩ := preserved_ok hx hr
    exact ⟨ha, congrArg (· - 1) hst.depth, hst.scopes, hst.functions⟩
  | error e st' =>
    obtain ⟨he, hst⟩ := preserved_error hx hr
    exact ⟨he, congrArg (· - 1) hst.depth, hst.scopes, hst.functions⟩

theorem keeps_imp {x : Run α} {R : α → Prop} (h : Keeps F spots d P x) (hR : ∀ a, P a → R a) :
    Keeps F spots d R x :=
  fun st hst => preserved_mono (h st hst) subset_rfl hR

theorem keeps_pure {a : α} (h : P a) : Keeps F spots d P (pure a) := fun _ hst => ⟨h, hst⟩

theorem keeps_stop {e : Stop} (h : ¬ e.IsPlaced) : Keeps F spots d P (throw e) :=
  fun _ hst => ⟨Stop.in_of_unplaced h, hst⟩

theorem keeps_bind {x : Run β} {f : β → Run α} (hx : Keeps F spots d Q x)
    (hf : ∀ b, Q b → Keeps F spots d P (f b)) : Keeps F spots d P (x >>= f) :=
  fun st hst => preserved_bind (hx st hst) fun b st hb hst => hf b hb st hst

theorem keeps_located {x : Run α} {p : Place} (hp : p ∈ spots) (h : Keeps F spots d P x) :
    Keeps F spots d P (Run.located p x) :=
  fun st hst => preserved_located hp (h st hst)

theorem keeps_get : Keeps F spots d (F.Kept d) (get : Run State) := fun _ hst => ⟨hst, hst⟩

theorem keeps_onHeap {x : Run α} (h : OnHeap x) : Keeps F spots d Always x := by
  obtain ⟨f, hf, hx⟩ := h
  intro st hst
  rw [hx]
  cases hv : f st.sight with
  | mk r h =>
    cases r with
    | ok a => exact ⟨trivial, hst.depth, hst.scopes, hst.functions⟩
    | error e => exact ⟨Stop.in_of_unplaced (hf _ _ _ hv), hst.depth, hst.scopes, hst.functions⟩

/-- A change of the state that touches neither scopes nor functions nor the depth. -/
theorem keeps_modify {f : State → State}
    (hf : ∀ st, (f st).scopes = st.scopes ∧ (f st).closures = st.closures ∧
      (f st).depth = st.depth) :
    Keeps F spots d Always (modify f : Run Unit) := by
  intro st hst
  obtain ⟨hscopes, hclosures, hdepth⟩ := hf st
  refine ⟨trivial, hdepth.trans hst.depth, ?_, ?_⟩
  · rw [hscopes]
    exact hst.scopes
  · rw [hclosures]
    exact hst.functions

/-! ### Traces and builtins -/

theorem openTrace_keeps : Keeps F spots d Always openTrace := by
  refine keeps_bind keeps_get fun st _ => ?_
  cases st.trace with
  | some t => exact keeps_pure trivial
  | none =>
    refine keeps_bind keeps_get fun st _ => ?_
    cases st.world.disk.openToWrite traceFile with
    | ok opened =>
      exact keeps_bind (keeps_modify fun _ => ⟨rfl, rfl, rfl⟩) fun _ _ => keeps_pure trivial
    | error e => exact keeps_stop id

theorem writeTrace_keeps (line : String) : Keeps F spots d Always (writeTrace line) := by
  apply keeps_bind openTrace_keeps
  intro t _
  cases Text.encodeUtf8 (line ++ "\n") with
  | ok bytes => exact keeps_modify fun _ => ⟨rfl, rfl, rfl⟩
  | error e => exact keeps_stop id

theorem traceAt_keeps (set : Settings) (level : Nat) (line : Heap → String) :
    Keeps F spots d Always (traceAt set level line) := by
  unfold traceAt
  by_cases hlevel : level ≤ set.traceLevel
  · rw [if_pos hlevel]
    exact keeps_bind (keeps_onHeap heap_onHeap) fun h _ => writeTrace_keeps (line h)
  · rw [if_neg hlevel]
    exact keeps_pure trivial

theorem traceFunction_keeps (set : Settings) (name : Json) (params : List Json) :
    Keeps F spots d Always (traceFunction set name params) := by
  unfold traceFunction
  by_cases hlevel : 2 ≤ set.traceLevel
  · rw [if_pos hlevel]
    cases strayName? params with
    | some stray => exact keeps_stop id
    | none => exact traceAt_keeps _ _ _
  · rw [if_neg hlevel]
    exact keeps_pure trivial

theorem refusedBy_unplaced (name : String) (r : Refusal) : ¬ (refusedBy name r).IsPlaced := by
  cases r with
  | failure f => exact nofun
  | fault f =>
    unfold refusedBy
    dsimp only
    by_cases hf : f.concernsValue = true
    · rw [if_pos hf]
      exact nofun
    · rw [if_neg hf]
      exact id

/-- A builtin acts on the world only. -/
theorem onWorld_keeps {refused : Refusal → Stop} (act : Action α)
    (h : ∀ r, ¬ (refused r).IsPlaced) : Keeps F spots d Always (onWorld refused act) := by
  intro st hst
  unfold onWorld
  dsimp only
  cases act st.world with
  | ok a w => exact ⟨trivial, hst.depth, hst.scopes, hst.functions⟩
  | error r w => exact ⟨Stop.in_of_unplaced (h r), hst.depth, hst.scopes, hst.functions⟩

theorem callBuiltin_keeps (set : Settings) (name : String) (args : List Value) :
    Keeps F spots d Always (callBuiltin set name args) := by
  unfold callBuiltin
  cases set.registry.find? name with
  | none => exact keeps_onHeap (onHeap_refuse _)
  | some builtin =>
    refine keeps_bind (traceAt_keeps _ _ _) fun _ _ => ?_
    refine keeps_bind (onWorld_keeps _ (refusedBy_unplaced name)) fun _ _ => ?_
    exact keeps_onHeap (newResult_onHeap _)

/-! ### Scopes and functions -/

theorem define_keeps {s : Nat} (hs : F.low ≤ s) (name : Json) (v : Value) :
    Keeps F spots d Always (define s name v) := by
  refine keeps_bind (keeps_onHeap (checkName_onHeap name)) fun _ _ st hst => ?_
  exact ⟨trivial, hst.depth, Scopes.extends_define hst.scopes (.inl hs), hst.functions⟩

theorem assignName_keeps (set : Settings) {s : Nat} (hs : F.low ≤ s) (name : Json) (v : Value) :
    Keeps F spots d Always (assignName set s name v) := by
  refine keeps_bind (Q := Always) ?_ fun _ _ => traceAt_keeps _ _ _
  refine keeps_bind (keeps_onHeap (checkName_onHeap name)) fun _ _ st hst => ?_
  exact ⟨trivial, hst.depth, Scopes.extends_assign hst.scopes hs, hst.functions⟩

theorem visit_keeps (set : Settings) (node : Node) (name : Json) {s : Nat} (hs : F.low ≤ s)
    (item : Value) : Keeps F spots d Always (visit set node name s item) :=
  keeps_bind (define_keeps hs _ _) fun _ _ => traceAt_keeps _ _ _

theorem newFunction_keeps (name : String) {c : Closure} (hc : F.Allows c.body) :
    Keeps F spots d Always (newFunction name c) := by
  intro st hst
  refine ⟨trivial, hst.depth, hst.scopes, ?_⟩
  intro c' hc'
  rcases Array.mem_push.mp hc' with hc' | rfl
  · exact hst.functions c' hc'
  · exact hc

/-! ### Actions with a result that matters -/

theorem place_keeps (node : Node) :
    Keeps F spots d (fun p => node.pos? = some p) (place node) := by
  intro st hst
  unfold place
  cases hp : node.pos? with
  | some p => exact ⟨rfl, hst⟩
  | none => exact ⟨Stop.in_of_unplaced id, hst⟩

theorem booleanAt_keeps {p : Place} (hp : p ∈ spots) (test : Test) (v : Value) :
    Keeps F spots d Always (booleanAt p test v) :=
  keeps_located hp (keeps_onHeap (onHeap_ofOperation _))

theorem closureOf_keeps (id : Nat) :
    Keeps F spots d (fun c => F.Allows c.body) (closureOf id) := by
  refine keeps_bind keeps_get fun st hst => keeps_pure ?_
  cases hc : st.closures[id]? with
  | none => exact nofun
  | some c => exact hst.functions c (Array.mem_of_getElem? hc)

/-- A call that gets past the check is within the limit. -/
theorem checkDepth_keeps (limit : Int) (name : String) :
    Keeps F spots d (fun _ => d < limit) (checkDepth limit name) := by
  refine keeps_bind keeps_get fun st hst => ?_
  by_cases hlimit : limit ≤ st.depth
  · rw [if_pos hlimit]
    exact keeps_stop nofun
  · rw [if_neg hlimit]
    have hd := hst.depth
    exact keeps_pure (by omega)

theorem child_keeps (s : Nat) : Keeps F spots d (F.low ≤ ·) (child s) := by
  intro st hst
  refine ⟨F.low_le.trans hst.scopes.size, hst.depth, ?_, hst.functions⟩
  exact Scopes.extends_child hst.scopes F.low_le s

theorem forM_keeps {f : β → Run Unit} (hf : ∀ b, Keeps F spots d Always (f b)) (bs : List β) :
    Keeps F spots d Always (bs.forM f) := by
  induction bs with
  | nil => exact keeps_pure trivial
  | cons b bs ih => exact keeps_bind (hf b) fun _ _ => ih

/-- The scope of a call is a new one. -/
theorem enter_keeps (set : Settings) (name : String) (c : Closure) (args : List Value) :
    Keeps F spots d (F.low ≤ ·) (enter set name c args) := by
  refine keeps_bind (keeps_imp (R := Always) keeps_get fun _ _ => trivial) fun st _ => ?_
  refine keeps_bind (child_keeps c.scope) fun inner hinner => ?_
  refine keeps_bind (forM_keeps (fun _ => define_keeps hinner _ _) _) fun _ _ => ?_
  exact keeps_bind (traceAt_keeps _ _ _) fun _ _ => keeps_pure hinner

end Evaluator

end Offside
