import Offside.Proofs.Action
import Offside.Proofs.Heap.Mirror

/-!
What actions of builtins do to the objects of the heap. Most of them only add objects; the others
change one object, that of their target, as the last thing they do, so that one that is refused has
changed nothing.
-/

namespace Offside

namespace Heap

/-- A later heap: objects may be added, and none is changed but that of the target. -/
structure Spares (target : Value) (h h' : Heap) : Prop where
  lists : ∀ i, i < h.lists.size → i < h'.lists.size ∧ (target ≠ .list i → h'.list i = h.list i)
  mappings : ∀ i, i < h.mappings.size →
    i < h'.mappings.size ∧ (target ≠ .mapping i → h'.mapping i = h.mapping i)

variable {h h' h'' : Heap} {target : Value}

theorem Extends.spares (he : h.Extends h') : h.Spares target h' :=
  ⟨fun i hi => ⟨(he.lists i hi).1, fun _ => (he.lists i hi).2⟩,
    fun i hi => ⟨(he.mappings i hi).1, fun _ => (he.mappings i hi).2⟩⟩

theorem Extends.trans_spares (he : h.Extends h') (hs : h'.Spares target h'') :
    h.Spares target h'' := by
  constructor
  · intro i hi
    obtain ⟨hi', heq⟩ := he.lists i hi
    obtain ⟨hi'', hsame⟩ := hs.lists i hi'
    exact ⟨hi'', fun hne => (hsame hne).trans heq⟩
  · intro i hi
    obtain ⟨hi', heq⟩ := he.mappings i hi
    obtain ⟨hi'', hsame⟩ := hs.mappings i hi'
    exact ⟨hi'', fun hne => (hsame hne).trans heq⟩

theorem modifyList_spares (h : Heap) (id : Nat) (f : Array Value → Array Value) :
    h.Spares (.list id) (h.modifyList id f) := by
  refine ⟨fun i hi => ⟨by simpa [modifyList] using hi, fun hne => ?_⟩, fun i hi => ⟨hi, fun _ => rfl⟩⟩
  have hid : id ≠ i := fun heq => hne (by rw [heq])
  simp [modifyList, list, Array.getElem?_modify, hid]

theorem modifyMapping_spares (h : Heap) (id : Nat) (f : Mapping → Mapping) :
    h.Spares (.mapping id) (h.modifyMapping id f) := by
  refine ⟨fun i hi => ⟨hi, fun _ => rfl⟩, fun i hi => ⟨by simpa [modifyMapping] using hi, fun hne => ?_⟩⟩
  have hid : id ≠ i := fun heq => hne (by rw [heq])
  simp [modifyMapping, mapping, Array.getElem?_modify, hid]

end Heap

namespace Action

variable {α β : Type} {target : Value}

/-- An action that changes no object, whether it is refused or not. -/
structure Adds (x : Action α) : Prop where
  grows : ∀ w : World, w.heap.Extends (worldAfter (x w)).heap

/-- An action that changes the object of the target alone, whether it is refused or not. -/
structure Alters (target : Value) (x : Action α) : Prop where
  spares : ∀ w : World, w.heap.Spares target (worldAfter (x w)).heap

/-- An action that changes the object of the target alone, and none if it is refused. -/
structure Edits (target : Value) (x : Action α) : Prop where
  spares : ∀ {w : World} {a w'}, x w = .ok a w' → w.heap.Spares target w'.heap
  undone : ∀ {w : World} {r w'}, x w = .error r w' → w.heap.Extends w'.heap

theorem Adds.alters {x : Action α} (h : Adds x) : Alters target x := ⟨fun w => (h.grows w).spares⟩

theorem Edits.alters {x : Action α} (h : Edits target x) : Alters target x := by
  constructor
  intro w
  cases hx : x w with
  | ok a w' => exact h.spares hx
  | error r w' => exact (h.undone hx).spares

theorem Adds.edits {x : Action α} (h : Adds x) : Edits target x := by
  constructor
  · intro w a w' hx
    have := h.grows w
    rw [hx] at this
    exact this.spares
  · intro w r w' hx
    have := h.grows w
    rwa [hx] at this

theorem adds_pure (a : α) : Adds (pure a : Action α) := ⟨fun _ => .refl _⟩

theorem adds_throw (r : Refusal) : Adds (throw r : Action α) := ⟨fun _ => .refl _⟩

theorem adds_bind {x : Action β} {f : β → Action α} (hx : Adds x) (hf : ∀ b, Adds (f b)) :
    Adds (x >>= f) := by
  constructor
  intro w
  have h := hx.grows w
  rw [bind_apply]
  cases hr : x w with
  | ok b w' =>
    rw [hr] at h
    exact h.trans ((hf b).grows w')
  | error r w' =>
    rw [hr] at h
    exact h

theorem adds_ite {p : Prop} [Decidable p] {x y : Action α} (hx : Adds x) (hy : Adds y) :
    Adds (if p then x else y) := by
  by_cases hp : p
  · rwa [if_pos hp]
  · rwa [if_neg hp]

/-- A change of the world that leaves the heap alone. -/
theorem adds_modifyGet {f : World → α × World} (hf : ∀ w, (f w).2.heap = w.heap) :
    Adds (modifyGet f : Action α) := by
  refine ⟨fun w => ?_⟩
  change w.heap.Extends (f w).2.heap
  rw [hf]
  exact .refl _

theorem newList_adds (items : List Value) : Adds (newList items) :=
  ⟨fun w => (Heap.newList_spec w.heap items.toArray).1⟩

theorem newMapping_adds (m : Mapping) : Adds (newMapping m) :=
  ⟨fun w => (Heap.newMapping_spec w.heap m).1⟩

/-- An action that edits nothing only adds objects. -/
theorem Confined.adds {x : Action α} (h : Confined False True x) : Adds x := by
  induction h with
  | pure a => exact adds_pure a
  | throw r => exact adds_throw r
  | bind _ _ ihx ihf => exact adds_bind ihx ihf
  | heap => exact ⟨fun _ => .refl _⟩
  | newList items => exact newList_adds items
  | newMapping m => exact newMapping_adds m
  | modifyHeap h => exact h.elim
  | stream hheap => exact adds_modifyGet hheap
  | get => exact ⟨fun _ => .refl _⟩
  | modify _ hheap => exact adds_modifyGet hheap

/-- Something before an action that changes its target. -/
theorem edits_bind {x : Action β} {f : β → Action α} (hx : Adds x)
    (hf : ∀ b, Edits target (f b)) : Edits target (x >>= f) := by
  constructor
  · intro w a w' h
    rw [bind_apply] at h
    have hgrows := hx.grows w
    cases hr : x w with
    | ok b w₁ =>
      rw [hr] at h hgrows
      exact hgrows.trans_spares ((hf b).spares h)
    | error r w₁ =>
      rw [hr] at h
      cases h
  · intro w r w' h
    rw [bind_apply] at h
    have hgrows := hx.grows w
    cases hr : x w with
    | ok b w₁ =>
      rw [hr] at h hgrows
      exact hgrows.trans ((hf b).undone h)
    | error r' w₁ =>
      rw [hr] at h hgrows
      cases h
      exact hgrows

theorem edits_ite {p : Prop} [Decidable p] {x y : Action α} (hx : Edits target x)
    (hy : Edits target y) : Edits target (if p then x else y) := by
  by_cases hp : p
  · rwa [if_pos hp]
  · rwa [if_neg hp]

theorem alters_ite {p : Prop} [Decidable p] {x y : Action α} (hx : Alters target x)
    (hy : Alters target y) : Alters target (if p then x else y) := by
  by_cases hp : p
  · rwa [if_pos hp]
  · rwa [if_neg hp]

theorem edits_change {f : Heap → Heap} (hf : ∀ h : Heap, h.Spares target (f h)) (a : α) :
    Edits target (do
      modifyHeap f
      return a) := by
  constructor
  · intro w b w' h
    cases h
    exact hf w.heap
  · intro w r w' h
    cases h

/-! ### Actions that build data

They add objects and change nothing else, and what they give is described by a property of values
that more objects do not change. -/

variable {w : World} {P Q : Heap → α → Prop}

/-- The action succeeds, adds objects to the heap only, and gives what has the property there. -/
def Builds (P : Heap → α → Prop) (x : Action α) (w : World) : Prop :=
  ∃ a h, x w = .ok a { w with heap := h } ∧ w.heap.Extends h ∧ P h a

theorem builds_pure {a : α} (h : P w.heap a) : Builds P (pure a) w :=
  ⟨a, w.heap, rfl, .refl _, h⟩

theorem builds_bind {x : Action β} {f : β → Action α} {Q : Heap → β → Prop} (hx : Builds Q x w)
    (hf : ∀ b h, w.heap.Extends h → Q h b → Builds P (f b) { w with heap := h }) :
    Builds P (x >>= f) w := by
  obtain ⟨b, h, hb, he, hq⟩ := hx
  obtain ⟨a, h', ha, he', hp⟩ := hf b h he hq
  exact ⟨a, h', by rw [bind_apply, hb]; exact ha, he.trans he', hp⟩

theorem builds_imp {x : Action α} (hx : Builds Q x w)
    (h : ∀ a h', w.heap.Extends h' → Q h' a → P h' a) : Builds P x w := by
  obtain ⟨a, h', ha, he, hq⟩ := hx
  exact ⟨a, h', ha, he, h a h' he hq⟩

theorem builds_newList (items : List Value) :
    Builds (fun h v => ∃ i, v = .list i ∧ i < h.lists.size ∧ (h.list i).toList = items)
      (newList items) w := by
  obtain ⟨he, hv, hlt, hitems⟩ := Heap.newList_spec w.heap items.toArray
  exact ⟨_, _, rfl, he, _, hv, hlt, congrArg Array.toList hitems⟩

theorem builds_newMapping (m : Mapping) :
    Builds (fun h v => ∃ i, v = .mapping i ∧ i < h.mappings.size ∧ h.mapping i = m)
      (newMapping m) w := by
  obtain ⟨he, hv, hlt, hm⟩ := Heap.newMapping_spec w.heap m
  exact ⟨_, _, rfl, he, _, hv, hlt, hm⟩

/-- One thing after another, each with what it has to be. -/
theorem builds_mapM {f : β → Action α} {R : Heap → β → α → Prop}
    (hmono : ∀ h h' b a, h.Extends h' → R h b a → R h' b a) {bs : List β}
    (hf : ∀ b ∈ bs, ∀ h, w.heap.Extends h → Builds (fun h a => R h b a) (f b) { w with heap := h }) :
    Builds (fun h as => List.Forall₂ (R h) bs as) (bs.mapM f) w := by
  induction bs generalizing w with
  | nil => exact builds_pure .nil
  | cons b bs ih =>
    obtain ⟨hb, hbs⟩ := List.forall_mem_cons.mp hf
    rw [List.mapM_cons]
    refine builds_bind (hb w.heap (.refl _)) fun a h he ha => ?_
    refine builds_bind (ih fun b' hb' h' he' => hbs b' hb' h' (he.trans he')) fun as h' he' has => ?_
    exact builds_pure (.cons (hmono h h' b a he' ha) has)

end Action

end Offside
