import Offside.Proofs.Evaluator.Invariant
import Offside.Proofs.Interpreter
import Offside.Proofs.Library.Reporting
import Offside.Proofs.Parser.Placing

/-!
What a run reports. In a state whose values are of the language and whose functions come of accepted
programs, the actions of the evaluator leave such a state, and they stop with an error of the
language: there is no other way to fail but for a remainder, if one is asked for, for a trace that
cannot hold its next line, and for memory.
-/

namespace Offside

/-- A node that asks for a remainder. -/
def Node.IsRemainder : Node → Prop
  | binaryOp _ op _ _ | augAssign _ _ op _ => op = "%"
  | _ => False

/-- A node of an accepted program; it asks for a remainder only if `remainders` says so. -/
structure Node.Plain (remainders : Prop) (n : Node) : Prop where
  textual : n.Textual
  remainder : n.IsRemainder → remainders

/-- A function of an accepted program. -/
structure Closure.Plain (remainders : Prop) (c : Closure) : Prop where
  params : ∀ x ∈ c.params, ∃ name : String, x = name
  body : c.Good true
  nodes : ∀ n ∈ c.body, n.All (Node.Plain remainders)

/-- A state that no host has meddled with. -/
structure State.Proper (set : Settings) (remainders : Prop) (st : State) : Prop where
  heap : st.world.heap.Proper
  scopes : st.scopes.Proper
  functions : ∀ c ∈ st.closures, c.Plain remainders
  trace : Traceable set st

/-- Of all conditions that the language has no error for, only these three can end a run. -/
def Stop.Reported (traced remainders : Prop) : Stop → Prop
  | fault f =>
    f = .outOfMemory ∨ f = .noRemainder ∧ remainders ∨ (∃ e, f = .surrogates e) ∧ traced
  | _ => True

def Completion.Proper : Completion → Prop
  | returned v => v.Proper
  | _ => True

theorem Completion.Proper.value {c : Completion} (h : c.Proper) : c.value.Proper := by
  cases c with
  | returned v => exact h
  | _ => trivial

namespace Evaluator

open Run

variable {α β : Type} {set : Settings} {R : Prop} {P : α → Prop} {Q : β → Prop} {st : State}

/-- A result satisfies `P`, a stop is reported, and the state is as it should be. -/
def Reported (set : Settings) (R : Prop) (P : α → Prop) : Outcome α → Prop
  | .ok a st => P a ∧ st.Proper set R
  | .error e st => e.Reported (0 < set.traceLevel) R ∧ st.Proper set R

/-- An action that ends so wherever the state is as it should be. -/
structure Reports (set : Settings) (R : Prop) (P : α → Prop) (x : Run α) : Prop where
  reported : ∀ st, st.Proper set R → Reported set R P (x st)

theorem reported_bind {x : Run β} {f : β → Run α} (hx : Reported set R Q (x st))
    (hf : ∀ b st', x st = .ok b st' → Q b → st'.Proper set R → Reported set R P (f b st')) :
    Reported set R P ((x >>= f) st) := by
  rw [bind_apply]
  cases h : x st with
  | ok b st' =>
    rw [h] at hx
    exact hf b st' h hx.1 hx.2
  | error e st' =>
    rw [h] at hx
    exact hx

theorem reported_located {x : Run α} (p : Place) (h : Reported set R P (x st)) :
    Reported set R P (Run.located p x st) := by
  unfold Run.located
  split
  · next e st' he =>
    rw [he] at h
    exact ⟨trivial, h.2⟩
  · exact h

theorem State.Proper.atDepth (h : st.Proper set R) (depth : Nat) :
    State.Proper set R { st with depth } :=
  ⟨h.heap, h.scopes, h.functions, h.trace⟩

theorem reported_deeper {x : Run α}
    (h : Reported set R P (x st.enterCall)) :
    Reported set R P (Run.deeper x st) := by
  unfold Run.deeper
  cases hr : x st.enterCall with
  | ok a st' =>
    rw [hr] at h
    exact ⟨h.1, State.Proper.atDepth h.2 _⟩
  | error e st' =>
    rw [hr] at h
    exact ⟨h.1, State.Proper.atDepth h.2 _⟩

theorem reports_pure {a : α} (h : P a) : Reports set R P (pure a) := ⟨fun _ hst => ⟨h, hst⟩⟩

theorem reports_stop {e : Stop} (h : e.Reported (0 < set.traceLevel) R) : Reports set R P (throw e : Run α) :=
  ⟨fun _ hst => ⟨h, hst⟩⟩

theorem reports_refuse (c : Cause) : Reports set R P (refuse c : Run α) := reports_stop trivial

theorem reports_bind {x : Run β} {f : β → Run α} (hx : Reports set R Q x)
    (hf : ∀ b, Q b → Reports set R P (f b)) : Reports set R P (x >>= f) :=
  ⟨fun st hst => reported_bind (hx.reported st hst) fun b st _ hb => (hf b hb).reported st⟩

theorem reports_located {x : Run α} (p : Place) (h : Reports set R P x) :
    Reports set R P (Run.located p x) :=
  ⟨fun st hst => reported_located p (h.reported st hst)⟩

theorem reports_get : Reports set R (State.Proper set R) (get : Run State) :=
  ⟨fun _ hst => ⟨hst, hst⟩⟩

theorem reports_modify {f : State → State} (h : ∀ st, st.Proper set R → (f st).Proper set R) :
    Reports set R Always (modify f : Run Unit) :=
  ⟨fun st hst => ⟨trivial, h st hst⟩⟩

theorem reports_modifyGet {f : State → α × State}
    (h : ∀ st, st.Proper set R → P (f st).1 ∧ (f st).2.Proper set R) :
    Reports set R P (modifyGet f : Run α) :=
  ⟨h⟩

theorem reports_ofOperation {F : Fault → Prop} {r : Except Trouble α}
    (h : Operation.Delivers F P r) (hF : ∀ f, F f → (Stop.fault f).Reported (0 < set.traceLevel) R) :
    Reports set R P (ofOperation r) := by
  rcases r with (c | f) | a
  · exact reports_refuse c
  · exact reports_stop (hF f h)
  · exact reports_pure h

/-- Passing on an operation that has an error for everything. -/
theorem reports_checked {r : Except Trouble α} (h : Operation.Delivers Operation.Never P r) :
    Reports set R P (ofOperation r) :=
  reports_ofOperation h fun _ => False.elim

/-! ### The heap -/

theorem withHeap_proper (h : st.Proper set R) {heap : Heap} (hh : heap.Proper) :
    (withHeap st heap).Proper set R :=
  ⟨hh, h.scopes, h.functions, h.trace⟩

theorem heap_reports : Reports set R Heap.Proper heap :=
  reports_bind reports_get fun _ hst => reports_pure hst.heap

theorem modifyHeap_reports {f : Heap → Heap} (hf : Operation.Edit.Proper f) :
    Reports set R Always (modifyHeap f) :=
  reports_modify fun _ hst => withHeap_proper hst (hf _ hst.heap)

theorem newList_reports {items : List Value} (h : ∀ v ∈ items, v.Proper) :
    Reports set R Value.Proper (newList items) := by
  refine reports_modifyGet fun st hst => ⟨trivial, withHeap_proper hst ?_⟩
  exact (hst.heap.newList fun v hv => h v (List.mem_toArray.mp hv)).2

theorem newMapping_reports {m : Mapping} (h : m.Proper) :
    Reports set R Value.Proper (newMapping m) :=
  reports_modifyGet fun _ hst => ⟨trivial, withHeap_proper hst (hst.heap.newMapping h).2⟩

theorem newResult_reports {v : Value} (h : v.Proper) :
    Reports set R Value.Proper (newResult v) :=
  reports_modifyGet fun _ hst =>
    ⟨(hst.heap.newResult h).1, withHeap_proper hst (hst.heap.newResult h).2⟩

/-! ### Expressions -/

theorem place_reports {node : Node} {p : Place} (h : node.pos? = some p) :
    Reports set R Always (place node) := by
  unfold place
  rw [h]
  exact reports_pure trivial

theorem booleanAt_reports (p : Place) (test : Test) (v : Value) :
    Reports set R Always (booleanAt p test v) :=
  reports_located p (reports_checked (Operation.boolean_delivers test v))

theorem checkKey_reports (p : Place) (key : Value) :
    Reports set R (fun _ => key.isHashable = true)
      (Run.located p (ofOperation (Operation.checkKey key))) :=
  reports_located p (reports_checked (Operation.checkKey_delivers key))

theorem applyBinary_reports {op : String} (h : op = "%" → R) (a b : Value) :
    Reports set R Value.Proper (applyBinary op a b) := by
  have hreported (f : Fault) (hf : op = "%" ∧ f = .noRemainder) :
      (Stop.fault f).Reported (0 < set.traceLevel) R :=
    .inr (.inl ⟨hf.2, h hf.1⟩)
  refine reports_bind heap_reports fun heap _ => ?_
  refine reports_bind (reports_ofOperation (Operation.binary_delivers heap op a b) hreported) ?_
  exact fun v hv => newResult_reports hv

theorem applyUnary_reports (op : Json) (v : Value) :
    Reports set R Value.Proper (applyUnary op v) := by
  unfold applyUnary
  split
  · exact reports_bind (reports_checked (Operation.unary_delivers _ v)) fun _ => newResult_reports
  · exact reports_refuse _

theorem readItem_reports (target index : Value) :
    Reports set R Value.Proper (readItem target index) :=
  reports_bind heap_reports fun _ hh => reports_checked (Operation.getItem_delivers hh _ _)

theorem itemsOf_reports (v : Value) :
    Reports set R (fun vs => ∀ v ∈ vs, v.Proper) (itemsOf v) :=
  reports_bind heap_reports fun _ hh => reports_checked (Operation.iterationItems_delivers hh v)

theorem writeItem_reports (container key : Value) {v : Value} (hv : v.Proper) :
    Reports set R Always (writeItem container key v) := by
  refine reports_bind heap_reports fun heap _ => ?_
  refine reports_bind (reports_checked (Operation.itemSetting_delivers hv heap container key)) ?_
  exact fun _ hf => modifyHeap_reports hf

theorem deleteItem_reports (container key : Value) :
    Reports set R Always (deleteItem container key) := by
  refine reports_bind heap_reports fun heap _ => ?_
  refine reports_bind (reports_checked (Operation.itemDeletion_delivers heap container key)) ?_
  exact fun _ hf => modifyHeap_reports hf

/-- A method is bound to a receiver of its sort. -/
theorem bindMethod_reports (target : Value) (name : Json) :
    Reports set R Value.Proper (bindMethod set target name) := by
  have hbegins (owner : String) : owner.toList <+: (owner ++ name.plain).toList := by
    rw [String.toList_append]
    exact List.prefix_append _ _
  have hmember (owner : String) (h : target.Serves (owner ++ name.plain)) :
      Reports set R Value.Proper (if set.registry.contains (owner ++ name.plain) then
          pure (.bound (owner ++ name.plain) target)
        else refuse (.noMember target.kind name.display)) := by
    split
    · exact reports_pure h
    · exact reports_refuse _
  cases target with
  | string s => exact hmember "str." (hbegins "str.")
  | list id => exact hmember "list." (hbegins "list.")
  | mapping id => exact hmember "map." (hbegins "map.")
  | _ => exact reports_refuse _

/-! ### Names -/

theorem traceAt_reports {level : Nat} (hlevel : 0 < level) (line : Heap → String) :
    Reports set R Always (traceAt set level line) := by
  constructor
  intro st hst
  by_cases hline : level ≤ set.traceLevel → Text.IsEncodable (line st.world.heap)
  · obtain ⟨st', hok, hsame, htrace⟩ := traceAt_ok hst.trace hlevel line hline
    rw [hok]
    exact ⟨trivial, hsame.heap ▸ hst.heap, hsame.scopes ▸ hst.scopes,
      hsame.closures ▸ hst.functions, htrace⟩
  · rw [Classical.not_imp] at hline
    obtain ⟨e, hrefused⟩ := traceAt_refused hst.trace hlevel line hline.1 hline.2
    rw [hrefused]
    exact ⟨.inr (.inr ⟨⟨e, rfl⟩, hlevel.trans_le hline.1⟩), hst⟩

theorem lookUp_reports (s : Nat) (name : String) : Reports set R Value.Proper (lookUp s name) := by
  refine reports_bind (Q := Always) (reports_pure trivial) fun _ _ => ?_
  refine reports_bind reports_get fun st hst => ?_
  split
  · next v hv => exact reports_pure (hst.scopes.get hv)
  · exact reports_refuse _

theorem define_reports (s : Nat) (name : String) {v : Value} (hv : v.Proper) :
    Reports set R Always (define s name v) := by
  refine reports_bind (Q := Always) (reports_pure trivial) fun _ _ => ?_
  refine reports_modify fun st hst => ?_
  exact ⟨hst.heap, hst.scopes.define s name hv, hst.functions, hst.trace⟩

theorem assignName_reports (s : Nat) (name : String) {v : Value} (hv : v.Proper) :
    Reports set R Always (assignName set s name v) := by
  have hassign : Reports set R Always (assign s name v) := by
    refine reports_bind (Q := Always) (reports_pure trivial) fun _ _ => ?_
    refine reports_modify fun st hst => ?_
    exact ⟨hst.heap, hst.scopes.define _ name hv, hst.functions, hst.trace⟩
  exact reports_bind hassign fun _ _ => traceAt_reports (by decide) _

theorem visit_reports (node : Node) (name : String) (s : Nat) {item : Value} (h : item.Proper) :
    Reports set R Always (visit set node name s item) :=
  reports_bind (define_reports s name h) fun _ _ => traceAt_reports (by decide) _

theorem newFunction_reports (name : String) {c : Closure} (hc : c.Plain R) :
    Reports set R Value.Proper (newFunction name c) := by
  refine reports_modifyGet fun st hst => ⟨trivial, hst.heap, hst.scopes, ?_, hst.trace⟩
  intro c' hc'
  rcases Array.mem_push.mp hc' with hc' | rfl
  · exact hst.functions c' hc'
  · exact hc

theorem traceFunction_reports (name : Json) {params : List Json}
    (h : ∀ x ∈ params, ∃ name : String, x = name) :
    Reports set R Always (traceFunction set name params) := by
  unfold traceFunction
  rw [strayName_none h]
  split
  · exact traceAt_reports (by decide) _
  · exact reports_pure trivial

/-! ### Calls -/

theorem closureOf_reports (id : Nat) : Reports set R (Closure.Plain R) (closureOf id) := by
  refine reports_bind reports_get fun st hst => reports_pure ?_
  cases hc : st.closures[id]? with
  | none => exact ⟨List.forall_mem_nil _, default_good, List.forall_mem_nil _⟩
  | some c => exact hst.functions c (Array.mem_of_getElem? hc)

theorem checkArity_reports (name : String) (c : Closure) (args : List Value) :
    Reports set R Always (checkArity name c args) := by
  unfold checkArity
  split
  · exact reports_refuse _
  · exact reports_pure trivial

theorem checkDepth_reports (limit : Int) (name : String) :
    Reports set R Always (checkDepth limit name) := by
  refine reports_bind reports_get fun st _ => ?_
  split
  · exact reports_refuse _
  · exact reports_pure trivial

theorem forM_reports {f : β → Run Unit} {bs : List β} (hf : ∀ b ∈ bs, Reports set R Always (f b)) :
    Reports set R Always (bs.forM f) := by
  induction bs with
  | nil => exact reports_pure trivial
  | cons b bs ih =>
    obtain ⟨hb, hbs⟩ := List.forall_mem_cons.mp hf
    exact reports_bind hb fun _ _ => ih hbs

theorem enter_reports (name : String) {c : Closure} (hc : c.Plain R) {args : List Value}
    (hargs : ∀ v ∈ args, v.Proper) : Reports set R Always (enter set name c args) := by
  refine reports_bind reports_get fun st _ => ?_
  have hchild : Reports set R Always (child c.scope) := by
    refine reports_modifyGet fun st hst => ⟨trivial, ?_⟩
    exact ⟨hst.heap, hst.scopes.child _, hst.functions, hst.trace⟩
  refine reports_bind hchild fun inner _ => ?_
  refine reports_bind (forM_reports fun b hb => ?_) fun _ _ => ?_
  · obtain ⟨param, arg⟩ := b
    obtain ⟨hparam, harg⟩ := List.of_mem_zip hb
    obtain ⟨x, rfl⟩ := hc.params param hparam
    exact define_reports inner x (hargs arg harg)
  · exact reports_bind (traceAt_reports (by decide) _) fun _ _ => reports_pure trivial

/-- What a builtin refuses stops the run with an error under its name. -/
theorem refusedBy_reported (name : String) {r : Refusal} (h : r.Reported) :
    (refusedBy name r).Reported (0 < set.traceLevel) R := by
  unfold refusedBy
  split
  · trivial
  · next f =>
    split
    · trivial
    · next hf =>
      rcases h with h | h
      · exact absurd h hf
      · exact .inl h

theorem onWorld_reports (name : String) {act : Action Value}
    (h : Action.Reports Value.Proper act) :
    Reports set R Value.Proper (onWorld (refusedBy name) act) := by
  constructor
  intro st hst
  have hact := h.reported st.world hst.heap
  unfold onWorld
  dsimp only
  cases hr : act st.world with
  | ok v w =>
    rw [hr] at hact
    exact ⟨hact.1, hact.2, hst.scopes, hst.functions, hst.trace⟩
  | error r w =>
    rw [hr] at hact
    exact ⟨refusedBy_reported name hact.1, hact.2, hst.scopes, hst.functions, hst.trace⟩

theorem resultOf_proper {v : Value} (h : v.Proper) : (resultOf v).Proper := by
  unfold resultOf
  split
  · trivial
  · exact h

/-- A call of a builtin that is off the disk, as a program comes to make it. -/
theorem callBuiltin_reports (hlibrary : ∀ b ∈ set.registry.builtins, b ∈ Library.builtins)
    {name : String} (hname : set.registry.contains name = true → Library.isDiskName name = false)
    {args : List Value} (hargs : Library.Fitting name args) :
    Reports set R Value.Proper (callBuiltin set name args) := by
  unfold callBuiltin
  split
  · exact reports_refuse _
  · next b hb =>
    have hmem : b ∈ set.registry.builtins := List.mem_of_find?_eq_some hb
    obtain rfl : b.name = name := by simpa using List.find?_some hb
    have hdisk := hname (List.any_eq_true.mpr ⟨b, hmem, by simp⟩)
    have hreports := Library.library_reports (hlibrary b hmem) hdisk
    refine reports_bind (traceAt_reports (by decide) _) fun _ _ => ?_
    refine reports_bind (onWorld_reports _ (Library.call_reports hreports hargs)) fun v hv => ?_
    exact newResult_reports (resultOf_proper hv)

end Evaluator

end Offside
