import Offside.Proofs.Action
import Offside.Proofs.Sorting
import Offside.Proofs.Value

/-!
Actions of builtins among values of the language. From a heap of such values an action leaves such a
heap, and what it refuses becomes an error of the language, unless memory is at an end.
-/

namespace Offside

/-- The refusal is one of the language, or there is not enough memory. -/
def Refusal.Reported : Refusal → Prop
  | failure _ => True
  | fault f => f.concernsValue = true ∨ f = .outOfMemory

namespace Action

variable {α β : Type} {P : α → Prop} {Q : β → Prop}

/-- A result satisfies `P`, a refusal is reported, and the heap holds values of the language. -/
def Reported (P : α → Prop) : EStateM.Result Refusal World α → Prop
  | .ok a w => P a ∧ w.heap.Proper
  | .error r w => r.Reported ∧ w.heap.Proper

/-- An action that ends so wherever the heap holds values of the language. -/
structure Reports (P : α → Prop) (x : Action α) : Prop where
  reported : ∀ w, w.heap.Proper → Reported P (x w)

theorem reports_pure {a : α} (h : P a) : Reports P (pure a : Action α) := ⟨fun _ hw => ⟨h, hw⟩⟩

theorem reports_throw {r : Refusal} (h : r.Reported) : Reports P (throw r : Action α) :=
  ⟨fun _ hw => ⟨h, hw⟩⟩

theorem reports_fail (f : Failure) : Reports P (fail f : Action α) := reports_throw trivial

theorem reports_fault {f : Fault} (h : (Refusal.fault f).Reported) :
    Reports P (fault f : Action α) :=
  reports_throw h

theorem reports_bind {x : Action β} {f : β → Action α} (hx : Reports Q x)
    (hf : ∀ b, Q b → Reports P (f b)) : Reports P (x >>= f) := by
  constructor
  intro w hw
  have h := hx.reported w hw
  rw [bind_apply]
  cases hr : x w with
  | ok b w' =>
    rw [hr] at h
    exact (hf b h.1).reported w' h.2
  | error r w' =>
    rw [hr] at h
    exact h

/-- What comes after an action that only gives a value. -/
theorem reports_given {b : β} {f : β → Action α} (h : Reports P (f b)) :
    Reports P (pure b >>= f) := by
  rwa [pure_bind]

theorem reports_ite {p : Prop} [Decidable p] {x y : Action α} (hx : Reports P x)
    (hy : Reports P y) : Reports P (if p then x else y) := by
  by_cases hp : p
  · rwa [if_pos hp]
  · rwa [if_neg hp]

theorem reports_imp {P' : α → Prop} {x : Action α} (h : Reports P x) (hP : ∀ a, P a → P' a) :
    Reports P' x := by
  constructor
  intro w hw
  have h := h.reported w hw
  cases hr : x w with
  | ok a w' =>
    rw [hr] at h
    exact ⟨hP a h.1, h.2⟩
  | error r w' =>
    rw [hr] at h
    exact h

theorem reports_mapM {f : β → Action α} {bs : List β} (hf : ∀ b ∈ bs, Reports P (f b)) :
    Reports (fun as => ∀ a ∈ as, P a) (bs.mapM f) := by
  induction bs with
  | nil => exact reports_pure (List.forall_mem_nil _)
  | cons b bs ih =>
    obtain ⟨hb, hbs⟩ := List.forall_mem_cons.mp hf
    rw [List.mapM_cons]
    refine reports_bind hb fun a ha => reports_bind (ih hbs) fun as has => reports_pure ?_
    exact List.forall_mem_cons.mpr ⟨ha, has⟩

theorem reports_each {f : β → Action α} {bs : List β} (hf : ∀ b ∈ bs, Reports P (f b)) :
    Reports (fun as => as.length = bs.length) (bs.mapM f) := by
  induction bs with
  | nil => exact reports_pure rfl
  | cons b bs ih =>
    obtain ⟨hb, hbs⟩ := List.forall_mem_cons.mp hf
    rw [List.mapM_cons]
    refine reports_bind hb fun a _ => reports_bind (ih hbs) fun as has => reports_pure ?_
    rw [List.length_cons, List.length_cons, has]

/-- What every step of a fold keeps holds of its result. -/
theorem reports_foldlM {f : α → β → Action α} {bs : List β} {a : α} (ha : P a)
    (hf : ∀ a, ∀ b ∈ bs, P a → Reports P (f a b)) : Reports P (bs.foldlM f a) := by
  induction bs generalizing a with
  | nil => exact reports_pure ha
  | cons b bs ih =>
    rw [List.foldlM_cons]
    refine reports_bind (hf a b List.mem_cons_self ha) fun a' ha' => ih ha' ?_
    exact fun a b hb => hf a b (List.mem_cons_of_mem _ hb)

/-! ### What builtins are made of -/

theorem reports_modifyGet {f : World → α × World}
    (hf : ∀ w, w.heap.Proper → P (f w).1 ∧ (f w).2.heap.Proper) :
    Reports P (modifyGet f : Action α) := ⟨hf⟩

/-- A change of the world that leaves the heap alone. -/
theorem reports_modify {f : World → World} (hf : ∀ w, (f w).heap = w.heap) :
    Reports (fun _ => True) (modify f : Action PUnit) := by
  refine reports_modifyGet fun w hw => ⟨trivial, ?_⟩
  rw [hf]
  exact hw

theorem heap_reports : Reports Heap.Proper heap := ⟨fun _ hw => ⟨hw, hw⟩⟩

theorem modifyHeap_reports {f : Heap → Heap} (hf : Operation.Edit.Proper f) :
    Reports (fun _ => True) (modifyHeap f) :=
  reports_modifyGet fun w hw => ⟨trivial, hf w.heap hw⟩

theorem newList_reports {items : List Value} (h : ∀ v ∈ items, v.Proper) :
    Reports Value.Proper (newList items) :=
  reports_modifyGet fun _ hw => hw.newList fun v hv => h v (List.mem_toArray.mp hv)

theorem newMapping_reports {m : Mapping} (h : m.Proper) : Reports Value.Proper (newMapping m) :=
  reports_modifyGet fun _ hw => hw.newMapping h

theorem ofOperation_reports {r : Except Trouble α} (h : Operation.Delivers Operation.Never P r) :
    Reports P (ofOperation r) := by
  rcases r with (c | f) | a
  · exact reports_fail _
  · exact h.elim
  · exact reports_pure h

theorem items_reports (id : Nat) : Reports (fun vs => ∀ v ∈ vs, v.Proper) (items id) :=
  reports_bind heap_reports fun _ hh => reports_pure (hh.items id)

theorem mapping_reports (id : Nat) : Reports Mapping.Proper (mapping id) :=
  reports_bind heap_reports fun _ hh => reports_pure (hh.mapping id)

theorem wrongKind_reports (builtin what wanted : String) (v : Value) :
    Reports P (wrongKind builtin what wanted v : Action α) := reports_fail _

section

variable (builtin what : String) (v : Value)

theorem integer_reports : Reports (fun _ => True) (integer builtin what v) := by
  unfold integer
  split
  · exact reports_pure trivial
  · exact wrongKind_reports _ _ _ _

theorem boolean_reports : Reports (fun _ => True) (boolean builtin what v) := by
  unfold boolean
  split
  · exact reports_pure trivial
  · exact wrongKind_reports _ _ _ _

theorem string_reports : Reports (fun _ => True) (string builtin what v) := by
  unfold string
  split
  · exact reports_pure trivial
  · exact wrongKind_reports _ _ _ _

theorem list_reports : Reports (fun _ => True) (list builtin what v) := by
  unfold list
  split
  · exact reports_pure trivial
  · exact wrongKind_reports _ _ _ _

theorem map_reports : Reports (fun _ => True) (map builtin what v) := by
  unfold map
  split
  · exact reports_pure trivial
  · exact wrongKind_reports _ _ _ _

theorem number_reports : Reports Value.Proper (number builtin what v) := by
  unfold number
  split
  · next hv =>
    refine reports_pure ?_
    cases v with
    | integer n => trivial
    | float x => trivial
    | nan object => trivial
    | _ => cases hv
  · exact wrongKind_reports _ _ _ _

end

theorem toFloat_reports (v : Value) : Reports (fun _ => True) (toFloat v) := by
  unfold toFloat
  split
  · split
    · exact reports_pure trivial
    · exact reports_fault (.inl rfl)
  · exact reports_pure trivial
  · exact reports_pure trivial
  · exact reports_pure trivial

theorem checkIndex_reports (n : Int) : Reports (fun _ => True) (checkIndex n) :=
  reports_ite (reports_pure trivial) (reports_fault (.inl rfl))

end Action

end Offside
