import Offside.Proofs.Evaluator.Conduct
import Offside.Proofs.Evaluator.Orderly
import Offside.Proofs.Library.Retaining

/-!
States that hold values of the language only, and whose functions have no literals but of such
values. Every action of the evaluator leaves such a state behind, however it ends and whatever the
tree is, so every task of a run is begun in one: a method keeps its receiver wherever it is stored,
and meets it again as the first argument of its builtin.
-/

namespace Offside

/-- What the node gives if it is a literal is a value of the language. -/
def Node.IsRegular : Node → Prop
  | literal _ v kind => (if kind.isText "None" then Value.none else .ofJson v).Proper
  | _ => True

structure State.InLanguage (st : State) : Prop where
  heap : st.world.heap.Proper
  scopes : st.scopes.Proper
  functions : ∀ c ∈ st.closures, ∀ n ∈ c.body, n.All Node.IsRegular

namespace Evaluator

open Run

variable {α β γ : Type} {set : Settings} {P : α → Prop} {Q : β → Prop} {st : State}

/-- A result satisfies `P`, and the state holds values of the language. -/
def Retained (P : α → Prop) : Outcome α → Prop
  | .ok a st => P a ∧ st.InLanguage
  | .error _ st => st.InLanguage

/-- An action that ends so wherever the state holds values of the language. -/
structure Retains (P : α → Prop) (x : Run α) : Prop where
  retained : ∀ st, st.InLanguage → Retained P (x st)

theorem retained_ok {r : Outcome α} {a : α} (h : Retained P r) (hr : r = .ok a st) :
    P a ∧ st.InLanguage := by
  rw [hr] at h
  exact h

theorem retained_after {r : Outcome α} (h : Retained P r) : (stateAfter r).InLanguage := by
  cases r with
  | ok a st => exact h.2
  | error e st => exact h

theorem retained_bind {x : Run β} {f : β → Run α} (hx : Retained Q (x st))
    (hf : ∀ b st', Q b → st'.InLanguage → Retained P (f b st')) :
    Retained P ((x >>= f) st) := by
  rw [bind_apply]
  cases h : x st with
  | ok b st' =>
    obtain ⟨hb, hst⟩ := retained_ok hx h
    exact hf b st' hb hst
  | error e st' =>
    rw [h] at hx
    exact hx

theorem retained_located {x : Run α} (p : Place) (h : Retained P (x st)) :
    Retained P (Run.located p x st) := by
  unfold Run.located
  split
  · next e st' he =>
    rw [he] at h
    exact h
  · exact h

theorem State.InLanguage.atDepth (h : st.InLanguage) (depth : Nat) :
    State.InLanguage { st with depth } :=
  ⟨h.heap, h.scopes, h.functions⟩

theorem retained_deeper {x : Run α} (h : Retained P (x st.enterCall)) :
    Retained P (Run.deeper x st) := by
  unfold Run.deeper
  cases hr : x st.enterCall with
  | ok a st' =>
    obtain ⟨ha, hst⟩ := retained_ok h hr
    exact ⟨ha, State.InLanguage.atDepth hst _⟩
  | error e st' =>
    rw [hr] at h
    exact State.InLanguage.atDepth h _

theorem retains_pure {a : α} (h : P a) : Retains P (pure a : Run α) := ⟨fun _ hst => ⟨h, hst⟩⟩

theorem retains_stop (e : Stop) : Retains P (throw e : Run α) := ⟨fun _ hst => hst⟩

theorem retains_refuse (c : Cause) : Retains P (refuse c : Run α) := retains_stop _

theorem retains_bind {x : Run β} {f : β → Run α} (hx : Retains Q x)
    (hf : ∀ b, Q b → Retains P (f b)) : Retains P (x >>= f) :=
  ⟨fun st hst => retained_bind (hx.retained st hst) fun b st hb => (hf b hb).retained st⟩

theorem retains_located {x : Run α} (p : Place) (h : Retains P x) :
    Retains P (Run.located p x) :=
  ⟨fun st hst => retained_located p (h.retained st hst)⟩

theorem retains_get : Retains State.InLanguage (get : Run State) := ⟨fun _ hst => ⟨hst, hst⟩⟩

theorem retains_modify {f : State → State} (h : ∀ st, st.InLanguage → (f st).InLanguage) :
    Retains Always (modify f : Run Unit) :=
  ⟨fun st hst => ⟨trivial, h st hst⟩⟩

theorem retains_modifyGet {f : State → α × State}
    (h : ∀ st, st.InLanguage → P (f st).1 ∧ (f st).2.InLanguage) :
    Retains P (modifyGet f : Run α) :=
  ⟨h⟩

theorem retains_ofOperation {F : Fault → Prop} {r : Except Trouble α}
    (h : Operation.Delivers F P r) : Retains P (ofOperation r) := by
  rcases r with (c | f) | a
  · exact retains_refuse c
  · exact retains_stop _
  · exact retains_pure h

/-! ### The heap -/

theorem heap_retains : Retains Heap.Proper heap :=
  retains_bind retains_get fun _ hst => retains_pure hst.heap

theorem modifyHeap_retains {f : Heap → Heap} (hf : Operation.Edit.Proper f) :
    Retains Always (modifyHeap f) :=
  retains_modify fun _ hst => ⟨hf _ hst.heap, hst.scopes, hst.functions⟩

theorem newList_retains {items : List Value} (h : ∀ v ∈ items, v.Proper) :
    Retains Value.Proper (newList items) := by
  refine retains_modifyGet fun st hst => ⟨trivial, ?_, hst.scopes, hst.functions⟩
  exact (hst.heap.newList fun v hv => h v (List.mem_toArray.mp hv)).2

theorem newMapping_retains {m : Mapping} (h : m.Proper) : Retains Value.Proper (newMapping m) :=
  retains_modifyGet fun _ hst =>
    ⟨trivial, (hst.heap.newMapping h).2, hst.scopes, hst.functions⟩

theorem newResult_retains {v : Value} (h : v.Proper) : Retains Value.Proper (newResult v) :=
  retains_modifyGet fun _ hst =>
    ⟨(hst.heap.newResult h).1, (hst.heap.newResult h).2, hst.scopes, hst.functions⟩

theorem readItem_retains (target index : Value) :
    Retains Value.Proper (readItem target index) :=
  retains_bind heap_retains fun _ hh => retains_ofOperation (Operation.getItem_delivers hh _ _)

theorem itemsOf_retains (v : Value) : Retains (fun vs => ∀ v ∈ vs, v.Proper) (itemsOf v) :=
  retains_bind heap_retains fun _ hh =>
    retains_ofOperation (Operation.iterationItems_delivers hh v)

theorem writeItem_retains (container key : Value) {v : Value} (hv : v.Proper) :
    Retains Always (writeItem container key v) := by
  refine retains_bind heap_retains fun heap _ => ?_
  refine retains_bind
    (retains_ofOperation (Operation.itemSetting_delivers hv heap container key)) fun f hf => ?_
  exact modifyHeap_retains hf

theorem deleteItem_retains (container key : Value) :
    Retains Always (deleteItem container key) := by
  refine retains_bind heap_retains fun heap _ => ?_
  refine retains_bind
    (retains_ofOperation (Operation.itemDeletion_delivers heap container key)) fun f hf => ?_
  exact modifyHeap_retains hf

/-! ### Expressions -/

theorem place_retains (node : Node) : Retains Always (place node) := by
  unfold place
  cases node.pos? with
  | some p => exact retains_pure trivial
  | none => exact retains_stop _

theorem booleanAt_retains (p : Place) (test : Test) (v : Value) :
    Retains Always (booleanAt p test v) :=
  retains_located p (retains_ofOperation (Operation.boolean_delivers test v))

theorem checkKey_retains (p : Place) (key : Value) :
    Retains Always (Run.located p (ofOperation (Operation.checkKey key))) := by
  refine retains_located p ?_
  cases Operation.checkKey key with
  | ok a => exact retains_pure trivial
  | error e => cases e <;> exact retains_stop _

theorem applyBinary_retains (op : Json) (a b : Value) :
    Retains Value.Proper (applyBinary op a b) := by
  unfold applyBinary
  split
  · refine retains_bind heap_retains fun heap _ => ?_
    refine retains_bind (retains_ofOperation (Operation.binary_delivers heap _ a b)) ?_
    exact fun _ => newResult_retains
  · exact retains_refuse _

theorem applyUnary_retains (op : Json) (v : Value) : Retains Value.Proper (applyUnary op v) := by
  unfold applyUnary
  split
  · refine retains_bind (retains_ofOperation (Operation.unary_delivers _ v)) ?_
    exact fun _ => newResult_retains
  · exact retains_refuse _

/-- A method is bound to a receiver of its sort. -/
theorem bindMethod_retains (target : Value) (name : Json) :
    Retains Value.Proper (bindMethod set target name) := by
  have hmember (owner : String)
      (h : owner.toList <+: (owner ++ name.plain).toList → target.Serves (owner ++ name.plain)) :
      Retains Value.Proper (if set.registry.contains (owner ++ name.plain) then
          pure (.bound (owner ++ name.plain) target)
        else refuse (.noMember target.kind name.display)) := by
    by_cases hname : set.registry.contains (owner ++ name.plain) = true
    · rw [if_pos hname]
      apply retains_pure
      apply h
      rw [String.toList_append]
      exact List.prefix_append _ _
    · rw [if_neg hname]
      exact retains_refuse _
  cases target with
  | string s => exact hmember "str." id
  | list id => exact hmember "list." fun h => h
  | mapping id => exact hmember "map." fun h => h
  | _ => exact retains_refuse _

/-! ### Names and traces -/

theorem openTrace_retains : Retains Always openTrace := by
  refine retains_bind retains_get fun st _ => ?_
  cases st.trace with
  | some t => exact retains_pure trivial
  | none =>
    refine retains_bind retains_get fun st _ => ?_
    cases st.world.disk.openToWrite traceFile with
    | ok opened =>
      refine retains_bind (retains_modify fun _ hst => ?_) fun _ _ => retains_pure trivial
      exact ⟨hst.heap, hst.scopes, hst.functions⟩
    | error e => exact retains_stop _

theorem writeTrace_retains (line : String) : Retains Always (writeTrace line) := by
  apply retains_bind openTrace_retains
  intro t _
  cases Text.encodeUtf8 (line ++ "\n") with
  | ok bytes => exact retains_modify fun _ hst => ⟨hst.heap, hst.scopes, hst.functions⟩
  | error e => exact retains_stop _

theorem traceAt_retains (level : Nat) (line : Heap → String) :
    Retains Always (traceAt set level line) := by
  unfold traceAt
  by_cases hlevel : level ≤ set.traceLevel
  · rw [if_pos hlevel]
    exact retains_bind heap_retains fun h _ => writeTrace_retains (line h)
  · rw [if_neg hlevel]
    exact retains_pure trivial

theorem checkName_retains (name : Json) : Retains Always (checkName name) := by
  unfold checkName
  split
  · exact retains_stop _
  · exact retains_pure trivial

theorem lookUp_retains (s : Nat) (name : Json) : Retains Value.Proper (lookUp s name) := by
  refine retains_bind (checkName_retains name) fun _ _ => ?_
  refine retains_bind retains_get fun st hst => ?_
  cases hv : st.scopes.get? s name with
  | some v => exact retains_pure (hst.scopes.get hv)
  | none => exact retains_refuse _

theorem define_retains (s : Nat) (name : Json) {v : Value} (hv : v.Proper) :
    Retains Always (define s name v) := by
  refine retains_bind (checkName_retains name) fun _ _ => retains_modify fun st hst => ?_
  exact ⟨hst.heap, hst.scopes.define s name hv, hst.functions⟩

theorem assignName_retains (s : Nat) (name : Json) {v : Value} (hv : v.Proper) :
    Retains Always (assignName set s name v) := by
  have hassign : Retains Always (assign s name v) := by
    refine retains_bind (checkName_retains name) fun _ _ => retains_modify fun st hst => ?_
    exact ⟨hst.heap, hst.scopes.define _ name hv, hst.functions⟩
  exact retains_bind hassign fun _ _ => traceAt_retains _ _

theorem visit_retains (node : Node) (name : Json) (s : Nat) {item : Value} (h : item.Proper) :
    Retains Always (visit set node name s item) :=
  retains_bind (define_retains s name h) fun _ _ => traceAt_retains _ _

theorem newFunction_retains (name : String) {c : Closure}
    (hc : ∀ n ∈ c.body, n.All Node.IsRegular) : Retains Value.Proper (newFunction name c) := by
  refine retains_modifyGet fun st hst => ⟨trivial, hst.heap, hst.scopes, ?_⟩
  intro c' hc'
  rcases Array.mem_push.mp hc' with hc' | rfl
  · exact hst.functions c' hc'
  · exact hc

theorem traceFunction_retains (name : Json) (params : List Json) :
    Retains Always (traceFunction set name params) := by
  unfold traceFunction
  by_cases hlevel : 2 ≤ set.traceLevel
  · rw [if_pos hlevel]
    cases strayName? params with
    | some stray => exact retains_stop _
    | none => exact traceAt_retains _ _
  · rw [if_neg hlevel]
    exact retains_pure trivial

/-! ### Calls -/

theorem closureOf_retains (id : Nat) :
    Retains (fun c => ∀ n ∈ c.body, n.All Node.IsRegular) (closureOf id) := by
  refine retains_bind retains_get fun st hst => retains_pure ?_
  cases hc : st.closures[id]? with
  | none => exact List.forall_mem_nil _
  | some c => exact hst.functions c (Array.mem_of_getElem? hc)

theorem checkArity_retains (name : String) (c : Closure) (args : List Value) :
    Retains Always (checkArity name c args) := by
  unfold checkArity
  split
  · exact retains_refuse _
  · exact retains_pure trivial

theorem checkDepth_retains (limit : Int) (name : String) :
    Retains Always (checkDepth limit name) := by
  refine retains_bind retains_get fun st _ => ?_
  split
  · exact retains_refuse _
  · exact retains_pure trivial

theorem forM_retains {f : β → Run Unit} {bs : List β} (hf : ∀ b ∈ bs, Retains Always (f b)) :
    Retains Always (bs.forM f) := by
  induction bs with
  | nil => exact retains_pure trivial
  | cons b bs ih =>
    obtain ⟨hb, hbs⟩ := List.forall_mem_cons.mp hf
    exact retains_bind hb fun _ _ => ih hbs

theorem enter_retains (name : String) (c : Closure) {args : List Value}
    (hargs : ∀ v ∈ args, v.Proper) : Retains Always (enter set name c args) := by
  refine retains_bind retains_get fun st _ => ?_
  have hchild : Retains Always (child c.scope) := by
    refine retains_modifyGet fun st hst => ⟨trivial, ?_⟩
    exact ⟨hst.heap, hst.scopes.child _, hst.functions⟩
  refine retains_bind hchild fun inner _ => ?_
  refine retains_bind (forM_retains fun b hb => ?_) fun _ _ => ?_
  · exact define_retains inner b.1 (hargs b.2 (List.of_mem_zip hb).2)
  · exact retains_bind (traceAt_retains _ _) fun _ _ => retains_pure trivial

theorem onWorld_retains {refused : Refusal → Stop} {act : Action Value}
    (h : Action.Retains Value.Proper act) :
    Retains Value.Proper (onWorld refused act) := by
  constructor
  intro st hst
  have hact := h.retained st.world hst.heap
  unfold onWorld
  dsimp only
  cases hr : act st.world with
  | ok v w =>
    rw [hr] at hact
    exact ⟨hact.1, hact.2, hst.scopes, hst.functions⟩
  | error r w =>
    rw [hr] at hact
    exact ⟨hact, hst.scopes, hst.functions⟩

theorem callBuiltin_retains (hlibrary : ∀ b ∈ set.registry.builtins, b ∈ Library.builtins)
    {name : String} {args : List Value} (hargs : Library.Fitting name args) :
    Retains Value.Proper (callBuiltin set name args) := by
  unfold callBuiltin
  cases hb : set.registry.find? name with
  | none => exact retains_refuse _
  | some b =>
    have hmem : b ∈ set.registry.builtins := List.mem_of_find?_eq_some hb
    obtain rfl : b.name = name := by simpa using List.find?_some hb
    have hcall := Library.call_retains (Library.library_retains (hlibrary b hmem)) hargs
    refine retains_bind (traceAt_retains _ _) fun _ _ => ?_
    refine retains_bind (onWorld_retains hcall) fun v hv => ?_
    exact newResult_retains (resultOf_proper hv)

end Evaluator

end Offside
