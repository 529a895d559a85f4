import Offside.Proofs.Evaluator.Allowance
import Offside.Proofs.Evaluator.Literal

/-!
Actions on the heap. Most actions of the evaluator look at the heap, the scopes and the depth,
change nothing but the heap, and leave the place of an error to the nodes around them.
-/

namespace Offside

/-- The error of a run has a place already. -/
def Stop.IsPlaced : Stop → Prop
  | .error e => e.place.isKnown = true
  | _ => False

/-- What an action on the heap sees of a state. -/
structure Sight where
  heap : Heap
  scopes : Scopes
  depth : Nat

def State.sight (st : State) : Sight := ⟨st.world.heap, st.scopes, st.depth⟩

namespace Evaluator

open Run

variable {α β : Type}

/-- The outcome of an action that gives this answer and leaves this heap. -/
def answered (st : State) : Except Stop α × Heap → Outcome α
  | (.ok a, h) => .ok a (withHeap st h)
  | (.error e, h) => .error e (withHeap st h)

def OnHeap (x : Run α) : Prop :=
  ∃ f : Sight → Except Stop α × Heap,
    (∀ v e h, f v = (.error e, h) → ¬ e.IsPlaced) ∧ ∀ st, x st = answered st (f st.sight)

theorem onHeap_ok {x : Run α} (f : Sight → α × Heap)
    (h : ∀ st, x st = .ok (f st.sight).1 (withHeap st (f st.sight).2)) : OnHeap x :=
  ⟨fun v => (.ok (f v).1, (f v).2), nofun, h⟩

theorem onHeap_pure (a : α) : OnHeap (pure a : Run α) :=
  onHeap_ok (fun v => (a, v.heap)) fun _ => rfl

theorem onHeap_stop {e : Stop} (he : ¬ e.IsPlaced) : OnHeap (throw e : Run α) := by
  refine ⟨fun v => (.error e, v.heap), ?_, fun _ => rfl⟩
  rintro v _ _ ⟨⟩
  exact he

theorem onHeap_refuse (c : Cause) : OnHeap (refuse c : Run α) := onHeap_stop nofun

theorem onHeap_fault (f : Fault) : OnHeap (fault f : Run α) := onHeap_stop id

theorem onHeap_bind {x : Run β} {y : β → Run α} (hx : OnHeap x) (hy : ∀ b, OnHeap (y b)) :
    OnHeap (x >>= y) := by
  obtain ⟨f, hf, hx⟩ := hx
  choose g hg hy using hy
  refine ⟨fun v => match f v with
    | (.ok b, h) => g b { v with heap := h }
    | (.error e, h) => (.error e, h), ?_, ?_⟩
  · intro v e h he
    dsimp only at he
    split at he
    · exact hg _ _ _ _ he
    · next e' h' hv =>
      cases he
      exact hf _ _ _ hv
  · intro st
    rw [bind_apply, hx]
    cases hv : f st.sight with
    | mk r h =>
      cases r with
      | error e => simp only [answered, hv]
      | ok b =>
        simp only [answered, hv]
        exact hy b (withHeap st h)

theorem onHeap_ite {p : Prop} [Decidable p] {x y : Run α} (hx : OnHeap x) (hy : OnHeap y) :
    OnHeap (if p then x else y) := by
  by_cases hp : p
  · rwa [if_pos hp]
  · rwa [if_neg hp]

theorem onHeap_ofOperation (r : Except Trouble α) : OnHeap (ofOperation r) := by
  rcases r with t | a
  · cases t with
    | cause c => exact onHeap_refuse c
    | fault f => exact onHeap_fault f
  · exact onHeap_pure a

/-! ### What is looked at -/

theorem heap_onHeap : OnHeap heap := onHeap_ok (fun v => (v.heap, v.heap)) fun _ => rfl

theorem depth_onHeap : OnHeap (do return (← get).depth : Run Nat) :=
  onHeap_ok (fun v => (v.depth, v.heap)) fun _ => rfl

theorem checkDepth_onHeap (limit : Int) (name : String) : OnHeap (checkDepth limit name) :=
  onHeap_bind (y := fun d : Nat => if limit ≤ d then refuse (.tooDeep limit name) else pure ())
    depth_onHeap fun _ => onHeap_ite (onHeap_refuse _) (onHeap_pure _)

theorem checkArity_onHeap (name : String) (c : Closure) (args : List Value) :
    OnHeap (checkArity name c args) :=
  onHeap_ite (onHeap_refuse _) (onHeap_pure _)

theorem place_onHeap (node : Node) : OnHeap (place node) := by
  unfold place
  split
  · exact onHeap_pure _
  · exact onHeap_fault _

theorem checkName_onHeap (name : Json) : OnHeap (checkName name) :=
  onHeap_ite (onHeap_fault _) (onHeap_pure _)

theorem lookUp_onHeap (s : Nat) (name : Json) : OnHeap (lookUp s name) := by
  refine onHeap_bind (checkName_onHeap name) fun _ => ?_
  let missing : Stop := .error { cause := .undefinedName name.plain }
  refine ⟨fun v => ((v.scopes.get? s name).elim (.error missing) .ok, v.heap), ?_, fun st => ?_⟩
  · intro v e h he
    dsimp only at he
    cases hfound : v.scopes.get? s name with
    | none =>
      rw [hfound] at he
      cases he
      exact nofun
    | some found =>
      rw [hfound] at he
      cases he
  · rw [get_bind]
    change _ = answered st ((st.scopes.get? s name).elim (.error missing) .ok, st.world.heap)
    cases st.scopes.get? s name <;> rfl

theorem readItem_onHeap (target index : Value) : OnHeap (readItem target index) :=
  onHeap_bind heap_onHeap fun _ => onHeap_ofOperation _

theorem itemsOf_onHeap (v : Value) : OnHeap (itemsOf v) :=
  onHeap_bind heap_onHeap fun _ => onHeap_ofOperation _

theorem newResult_onHeap (v : Value) : OnHeap (newResult v) :=
  onHeap_ok (fun seen => seen.heap.newResult v) fun _ => rfl

theorem applyUnary_onHeap (op : Json) (v : Value) : OnHeap (applyUnary op v) := by
  unfold applyUnary
  split
  · exact onHeap_bind (onHeap_ofOperation _) newResult_onHeap
  · exact onHeap_refuse _

theorem applyBinary_onHeap (op : Json) (a b : Value) : OnHeap (applyBinary op a b) := by
  unfold applyBinary
  split
  · refine onHeap_bind heap_onHeap fun _ => ?_
    exact onHeap_bind (onHeap_ofOperation _) newResult_onHeap
  · exact onHeap_refuse _

theorem bindMethod_onHeap (set : Settings) (target : Value) (name : Json) :
    OnHeap (bindMethod set target name) := by
  unfold bindMethod
  dsimp only
  split
  · exact onHeap_ite (onHeap_pure _) (onHeap_refuse _)
  · exact onHeap_refuse _

/-! ### What is changed -/

theorem modifyHeap_onHeap (f : Heap → Heap) : OnHeap (modifyHeap f) :=
  onHeap_ok (fun v => ((), f v.heap)) fun _ => rfl

theorem newList_onHeap (items : List Value) : OnHeap (newList items) :=
  onHeap_ok (fun v => v.heap.newList items.toArray) fun _ => rfl

theorem newMapping_onHeap (m : Mapping) : OnHeap (newMapping m) :=
  onHeap_ok (fun v => v.heap.newMapping m) fun _ => rfl

theorem writeItem_onHeap (container key v : Value) : OnHeap (writeItem container key v) :=
  onHeap_bind heap_onHeap fun _ =>
    onHeap_bind (onHeap_ofOperation _) fun f => modifyHeap_onHeap f

theorem deleteItem_onHeap (container key : Value) : OnHeap (deleteItem container key) :=
  onHeap_bind heap_onHeap fun _ =>
    onHeap_bind (onHeap_ofOperation _) fun f => modifyHeap_onHeap f

end Evaluator

end Offside
