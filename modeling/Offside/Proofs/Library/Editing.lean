import Offside.Proofs.Library.Confinement
import Offside.Proofs.Library.Standard
import Offside.Proofs.Mapping

/-!
Builtins that change an object. It is what their first argument refers to, and, but for a sort, they
change it when all that can be refused has been checked; what they put into it they have read
before, so that an argument may be given twice.
-/

namespace Offside

namespace Heap

variable {h : Heap} {i : Nat}

theorem list_modifyList (hi : i < h.lists.size) (f : Array Value → Array Value) :
    (h.modifyList i f).list i = f (h.list i) := by
  simp [modifyList, list, Array.getElem_modify, hi]

theorem mapping_modifyMapping (hi : i < h.mappings.size) (f : Mapping → Mapping) :
    (h.modifyMapping i f).mapping i = f (h.mapping i) := by
  simp [modifyMapping, mapping, Array.getElem_modify, hi]

end Heap

namespace Library

open Offside.Action

variable {α β : Type} {target : Value} {f : Nat → Action α}

/-- The function of a builtin changes the object of its first argument alone, and none if it is
refused. -/
def IsEditing (b : Builtin) : Prop := ∀ args : List Value, Edits (args.headD .none) (b.run args)

theorem call_edits {b : Builtin} (h : IsEditing b) (args : List Value) :
    Edits (args.headD .none) (b.call args) := by
  unfold Builtin.call
  cases b.arity? with
  | none => exact h args
  | some range => exact edits_ite (h args) (fail_confined _).adds.edits

theorem call_alters {b : Builtin} {args : List Value} (h : Alters target (b.run args)) :
    Alters target (b.call args) := by
  unfold Builtin.call
  cases b.arity? with
  | none => exact h
  | some range => exact alters_ite h (fail_confined _).adds.alters

theorem refused_edits {r : Refusal} {f : β → Action α} :
    Edits target ((throw r : Action β) >>= f) := by
  constructor
  · intro w a w' h
    cases h
  · intro w r w' h
    cases h
    exact .refl _

/-- A check that an action begins with. -/
theorem edits_check {p : Prop} [Decidable p] {x : Action Unit} {f : Unit → Action α} (hx : Adds x)
    (hf : Edits target (f ())) : Edits target (if p then x >>= f else f ()) :=
  edits_ite (edits_bind hx fun _ => hf) hf

/-! ### Targets -/

theorem edits_list (builtin what : String) (hf : ∀ id, Edits (.list id) (f id)) :
    Edits target (list builtin what target >>= f) := by
  cases target with
  | list id => exact hf id
  | _ => exact refused_edits

theorem edits_receiverList (part : String) (hf : ∀ id, Edits (.list id) (f id)) :
    Edits target (receiverList part target >>= f) := by
  cases target with
  | list id => exact hf id
  | _ => exact refused_edits

theorem edits_receiverItems (hf : ∀ id, Edits (.list id) (f id)) :
    Edits target (receiverItems target >>= f) := by
  cases target with
  | list id => exact hf id
  | _ => exact refused_edits

theorem edits_receiverMapping (part : String) (hf : ∀ id, Edits (.mapping id) (f id)) :
    Edits target (receiverMapping part target >>= f) := by
  cases target with
  | mapping id => exact hf id
  | _ => exact refused_edits

/-! ### Changes -/

theorem changeList_edits (id : Nat) (f : Array Value → Array Value) (a : α) :
    Edits (.list id) (do
      modifyHeap (·.modifyList id f)
      return a) :=
  edits_change (fun h => h.modifyList_spares id f) a

theorem changeMapping_edits (id : Nat) (f : Mapping → Mapping) (a : α) :
    Edits (.mapping id) (do
      modifyHeap (·.modifyMapping id f)
      return a) :=
  edits_change (fun h => h.modifyMapping_spares id f) a

theorem popItem_edits (id : Nat) (index : Option Value) : Edits (.list id) (popItem id index) := by
  unfold popItem
  refine edits_bind Confined.heap.adds fun h => edits_check (fail_confined _).adds ?_
  refine edits_bind (ofOperation_confined _).adds fun p => edits_bind Confined.heap.adds fun h => ?_
  exact changeList_edits id _ _

theorem insertItem_edits (id : Nat) (index : Int) (v : Value) :
    Edits (.list id) (insertItem id index v) :=
  edits_bind (checkIndex_confined index).adds fun _ => changeList_edits id _ _

theorem append_edits : IsEditing ⟨"append", some 2, none, append⟩ := by
  intro args
  dsimp only
  unfold append
  split
  · exact edits_list _ _ fun id => changeList_edits id _ _
  · exact (fault_confined _).adds.edits

theorem pop_edits : IsEditing ⟨"pop", some 1, some 2, pop⟩ := by
  intro args
  dsimp only
  unfold pop
  split
  · exact edits_list _ _ fun id => popItem_edits id _
  · exact (fault_confined _).adds.edits

theorem insert_edits : IsEditing ⟨"insert", some 3, none, Library.insert⟩ := by
  intro args
  dsimp only
  unfold Library.insert
  split
  · refine edits_list _ _ fun id => edits_bind (integer_confined _ _ _).adds fun i => ?_
    exact insertItem_edits id i _
  · exact (fault_confined _).adds.edits

namespace ListMethod

theorem append_edits : IsEditing ⟨"list.append", some 2, none, ListMethod.append⟩ := by
  intro args
  dsimp only
  unfold ListMethod.append
  split
  · exact edits_receiverList _ fun id => changeList_edits id _ _
  · exact (fault_confined _).adds.edits

theorem pop_edits : IsEditing ⟨"list.pop", some 1, some 2, ListMethod.pop⟩ := by
  intro args
  dsimp only
  unfold ListMethod.pop
  split
  · exact edits_receiverList _ fun id => popItem_edits id _
  · exact (fault_confined _).adds.edits

theorem insert_edits : IsEditing ⟨"list.insert", some 3, none, ListMethod.insert⟩ := by
  intro args
  dsimp only
  unfold ListMethod.insert
  split
  · refine edits_receiverList _ fun id => edits_bind (integer_confined _ _ _).adds fun i => ?_
    exact insertItem_edits id i _
  · exact (fault_confined _).adds.edits

theorem remove_edits : IsEditing ⟨"list.remove", some 2, none, ListMethod.remove⟩ := by
  intro args
  dsimp only
  unfold ListMethod.remove
  split
  · refine edits_receiverItems fun id => edits_bind (needed_confined id _).adds fun i => ?_
    exact changeList_edits id _ _
  · exact (fault_confined _).adds.edits

theorem reverse_edits : IsEditing ⟨"list.reverse", some 1, none, ListMethod.reverse⟩ := by
  intro args
  dsimp only
  unfold ListMethod.reverse
  split
  · exact edits_receiverList _ fun id => changeList_edits id _ _
  · exact (fault_confined _).adds.edits

theorem clear_edits : IsEditing ⟨"list.clear", some 1, none, ListMethod.clear⟩ := by
  intro args
  dsimp only
  unfold ListMethod.clear
  split
  · exact edits_receiverList _ fun id => changeList_edits id _ _
  · exact (fault_confined _).adds.edits

theorem extend_edits : IsEditing ⟨"list.extend", some 2, none, ListMethod.extend⟩ := by
  intro args
  dsimp only
  unfold ListMethod.extend
  split
  · refine edits_bind (Action.list_confined _ _ _).adds fun source => ?_
    refine edits_receiverList _ fun id => ?_
    exact edits_bind (items_confined source).adds fun added => changeList_edits id _ _
  · exact (fault_confined _).adds.edits

/-- A sort that is refused leaves the items as it has moved them. -/
theorem sort_eq (id : Nat) (w : World) :
    ListMethod.sort [.list id] w = match arrange "sort" (w.heap.list id).toList with
      | .ok arranged =>
        .ok .none { w with heap := w.heap.modifyList id fun _ => arranged.toArray }
      | .error stop =>
        .error stop.cause { w with heap := w.heap.modifyList id fun _ => stop.items.toArray } := by
  change (match arrange "sort" (w.heap.list id).toList with
    | .ok arranged => _
    | .error stop => _ : Action Value) w = _
  cases arrange "sort" (w.heap.list id).toList <;> rfl

theorem sort_alters (args : List Value) : Alters (args.headD .none) (ListMethod.sort args) := by
  unfold ListMethod.sort
  split
  · next target =>
    cases target with
    | list id =>
      refine ⟨fun w => ?_⟩
      change w.heap.Spares _ (worldAfter (ListMethod.sort [.list id] w)).heap
      rw [sort_eq]
      cases arrange "sort" (w.heap.list id).toList <;> exact w.heap.modifyList_spares id _
    | _ => exact refused_edits.alters
  · exact (fault_confined _).adds.alters

end ListMethod

namespace MapMethod

theorem clear_edits : IsEditing ⟨"map.clear", some 1, none, MapMethod.clear⟩ := by
  intro args
  dsimp only
  unfold MapMethod.clear
  split
  · exact edits_receiverMapping _ fun id => changeMapping_edits id _ _
  · exact (fault_confined _).adds.edits

theorem update_edits : IsEditing ⟨"map.update", some 2, none, MapMethod.update⟩ := by
  intro args
  dsimp only
  unfold MapMethod.update
  split
  · refine edits_bind (map_confined _ _ _).adds fun source => ?_
    refine edits_bind (mapping_confined source).adds fun added => ?_
    refine edits_ite ?_ (adds_pure _).edits
    exact edits_receiverMapping _ fun id => changeMapping_edits id _ _
  · exact (fault_confined _).adds.edits

theorem pop_edits : IsEditing ⟨"map.pop", some 2, some 3, MapMethod.pop⟩ := by
  intro args
  dsimp only
  unfold MapMethod.pop
  split
  · refine edits_bind (ofOperation_confined _).adds fun _ => edits_receiverMapping _ fun id => ?_
    refine edits_bind (mapping_confined id).adds fun m => ?_
    split
    · exact changeMapping_edits id _ _
    · exact (adds_pure _).edits
    · exact (fail_confined _).adds.edits
  · exact (fault_confined _).adds.edits

end MapMethod

/-! ### The whole library -/

theorem core_edits : ∀ b ∈ core, b.name ∈ editors → IsEditing b := by
  simp only [core, List.forall_mem_cons]
  exact ⟨fun h => absurd h (by decide), fun h => absurd h (by decide),
    fun h => absurd h (by decide), fun h => absurd h (by decide), fun h => absurd h (by decide),
    fun h => absurd h (by decide), fun h => absurd h (by decide), fun h => absurd h (by decide),
    fun h => absurd h (by decide), fun h => absurd h (by decide), fun _ => append_edits,
    fun h => absurd h (by decide), fun h => absurd h (by decide), fun h => absurd h (by decide),
    fun h => absurd h (by decide), fun h => absurd h (by decide), fun h => absurd h (by decide),
    fun _ => pop_edits, fun _ => insert_edits, fun h => absurd h (by decide),
    fun h => absurd h (by decide), fun h => absurd h (by decide), fun h => absurd h (by decide),
    fun h => absurd h (by decide), fun h => absurd h (by decide), fun h => absurd h (by decide),
    fun h => absurd h (by decide), List.forall_mem_nil _⟩

theorem listMethods_edit :
    ∀ b ∈ listMethods, b.name ∈ editors → b.name ≠ "list.sort" → IsEditing b := by
  simp only [listMethods, List.forall_mem_cons]
  exact ⟨fun _ _ => ListMethod.append_edits, fun _ _ => ListMethod.pop_edits,
    fun _ _ => ListMethod.insert_edits, fun _ _ => ListMethod.remove_edits,
    fun _ _ => ListMethod.reverse_edits, fun _ _ => ListMethod.clear_edits,
    fun h => absurd h (by decide), fun h => absurd h (by decide), fun h => absurd h (by decide),
    fun _ _ => ListMethod.extend_edits, fun _ h => absurd rfl h, List.forall_mem_nil _⟩

theorem mapMethods_edit : ∀ b ∈ mapMethods, b.name ∈ editors → IsEditing b := by
  simp only [mapMethods, List.forall_mem_cons]
  exact ⟨fun h => absurd h (by decide), fun h => absurd h (by decide),
    fun h => absurd h (by decide), fun h => absurd h (by decide), fun _ => MapMethod.clear_edits,
    fun _ => MapMethod.update_edits, fun _ => MapMethod.pop_edits, List.forall_mem_nil _⟩

theorem editors_elsewhere :
    ∀ b ∈ textMethods ++ files ++ system ++ arithmetic ++ json ++ csv, b.name ∉ editors := by
  decide +kernel

/-- A builtin of the library that does not sort changes nothing if it is refused. -/
theorem library_edits {b : Builtin} (hb : b ∈ builtins) (hsort : b.name ≠ "list.sort") :
    IsEditing b := by
  by_cases hname : b.name ∈ editors
  · have hother := editors_elsewhere b
    simp only [builtins, methods, List.mem_append] at hb hother
    rcases hb with (((((hb | (hb | hb) | hb) | hb) | hb) | hb) | hb) | hb
    · exact core_edits b hb hname
    · exact absurd hname (hother (by simp only [hb, true_or]))
    · exact listMethods_edit b hb hname hsort
    · exact mapMethods_edit b hb hname
    all_goals exact absurd hname (hother (by simp only [hb, true_or, or_true]))
  · exact fun args => (library_adds hb hname args).edits

/-- Every builtin of the library changes at most the object of its first argument. -/
theorem library_alters {b : Builtin} (hb : b ∈ builtins) (args : List Value) :
    Alters (args.headD .none) (b.run args) := by
  by_cases hname : b.name = "list.sort"
  · have hsort : (⟨"list.sort", some 1, none, ListMethod.sort⟩ : Builtin) ∈ builtins := by
      simp only [builtins, methods, listMethods, List.mem_append, List.mem_cons, true_or, or_true]
    have hfound := find_standard hb
    rw [hname, find_standard hsort] at hfound
    obtain rfl := Option.some_inj.mp hfound
    exact ListMethod.sort_alters args
  · exact (library_edits hb hname args).alters

/-! ### Adding what an object holds to another, which may be the same -/

variable {w : World} {i : Nat}

theorem invoke_extend (hi : i < w.heap.lists.size) (j : Nat) :
    ∃ w', invoke "list.extend" [.list i, .list j] w = .ok .none w' ∧
      w'.heap.list i = w.heap.list i ++ w.heap.list j := by
  have hb : (⟨"list.extend", some 2, none, ListMethod.extend⟩ : Builtin) ∈ builtins := by
    simp only [builtins, methods, listMethods, List.mem_append, List.mem_cons, true_or, or_true]
  have hcall : invoke "list.extend" [.list i, .list j] w = .ok .none
      { w with heap := w.heap.modifyList i (· ++ (w.heap.list j).toList.toArray) } :=
    congrFun (invoke_builtin hb [.list i, .list j]) w
  refine ⟨_, hcall, ?_⟩
  rw [Heap.list_modifyList hi]

theorem invoke_update (hi : i < w.heap.mappings.size) (j : Nat) :
    ∃ w', invoke "map.update" [.mapping i, .mapping j] w = .ok .none w' ∧
      w'.heap.mapping i = (w.heap.mapping i).setAll (w.heap.mapping j).entries := by
  have hb : (⟨"map.update", some 2, none, MapMethod.update⟩ : Builtin) ∈ builtins := by
    simp only [builtins, methods, mapMethods, List.mem_append, List.mem_cons, true_or, or_true]
  have hcall : invoke "map.update" [.mapping i, .mapping j] w =
      MapMethod.update [.mapping i, .mapping j] w :=
    congrFun (invoke_builtin hb [.mapping i, .mapping j]) w
  rw [hcall]
  cases hes : (w.heap.mapping j).entries with
  | nil =>
    refine ⟨w, ?_, rfl⟩
    have hempty : (!(w.heap.mapping j).entries.isEmpty) = false := by rw [hes]; rfl
    change (if (!(w.heap.mapping j).entries.isEmpty) = true then _ else _ : Action Value) w = _
    rw [hempty]
    rfl
  | cons e es =>
    refine ⟨{ w with heap := w.heap.modifyMapping i (·.setAll (w.heap.mapping j).entries) }, ?_, ?_⟩
    · have hthere : (!(w.heap.mapping j).entries.isEmpty) = true := by rw [hes]; rfl
      change (if (!(w.heap.mapping j).entries.isEmpty) = true then _ else _ : Action Value) w = _
      rw [hthere]
      rfl
    · rw [Heap.mapping_modifyMapping hi, hes]

/-- Builtins change the object of their first argument alone, and only those of the list change it;
but for a sort, a call that is refused changes nothing. What is added to a List or a Mapping is what
the other held before, also where both are one; a Mapping that is added to itself stays as it is, to
the entry, whatever its keys are. -/
theorem builtins_touch_first_argument (args : List Value) (w : World) :
    (∀ b ∈ standard.builtins,
      w.heap.Spares (args.headD .none) (worldAfter (b.call args w)).heap ∧
      (b.name ∉ editors → w.heap.Extends (worldAfter (b.call args w)).heap) ∧
      (b.name ≠ "list.sort" → ∀ r w', b.call args w = .error r w' → w.heap.Extends w'.heap)) ∧
    (∀ i j, i < w.heap.lists.size →
      ∃ w', invoke "list.extend" [.list i, .list j] w = .ok .none w' ∧
        w'.heap.list i = w.heap.list i ++ w.heap.list j) ∧
    ∀ i j, i < w.heap.mappings.size → (w.heap.mapping j).Distinct →
      ∃ w', invoke "map.update" [.mapping i, .mapping j] w = .ok .none w' ∧
        (∀ key, (w'.heap.mapping i).get? key =
          ((w.heap.mapping j).get? key).or ((w.heap.mapping i).get? key)) ∧
        ((w.heap.mapping i).Distinct →
          (w'.heap.mapping i).entries = (w.heap.mapping i).merged (w.heap.mapping j)) ∧
        (i = j → (∀ key ∈ (w.heap.mapping i).keys, key.isHashable = true) →
          w'.heap.mapping i = w.heap.mapping i) := by
  refine ⟨fun b hb => ?_, fun i j hi => invoke_extend hi j, fun i j hi hd => ?_⟩
  · rw [standard_eq] at hb
    exact ⟨(call_alters (library_alters hb args)).spares w,
      fun hname => (call_adds (library_adds hb hname) args).grows w,
      fun hsort r w' h => (call_edits (library_edits hb hsort) args).undone h⟩
  · obtain ⟨w', hcall, hmapping⟩ := invoke_update hi j
    refine ⟨w', hcall, fun key => ?_, fun hi => ?_, ?_⟩
    · rw [hmapping, Mapping.get_setAll_distinct _ hd]
    · rw [hmapping, Mapping.entries_setAll hi hd]
    · rintro rfl hkeys
      rw [hmapping]
      exact congrArg Mapping.mk ((Mapping.entries_setAll hd hd).trans (Mapping.merged_self hd hkeys))

/-- A List and a Mapping that hold themselves, a Mapping with a key of the other, and one with a NaN
for a key. -/
def knotted : World :=
  { (default : World) with
    heap := {
      lists := #[#[.list 0, .integer 1]]
      mappings := #[⟨[(.string "k", .mapping 0)]⟩,
        ⟨[(.string "k", .none), (.string "l", .list 0)]⟩, ⟨[(.nan .constant, .none)]⟩] } }

theorem knotted_touched :
    (⟨"list.index", some 2, none, ListMethod.index⟩ : Builtin) ∈ standard.builtins ∧
    "list.index" ∉ editors ∧
    (∃ r w', ListMethod.index [.list 0, .string "k"] knotted = .error r w' ∧
      knotted.heap.Extends w'.heap) ∧
    (∃ w', invoke "list.extend" [.list 0, .list 0] knotted = .ok .none w' ∧
      w'.heap.list 0 = #[.list 0, .integer 1, .list 0, .integer 1]) ∧
    (knotted.heap.mapping 1).Distinct ∧ (knotted.heap.mapping 0).Distinct ∧
    (∃ w', invoke "map.update" [.mapping 0, .mapping 1] knotted = .ok .none w' ∧
      (w'.heap.mapping 0).entries = [(.string "k", .none), (.string "l", .list 0)]) ∧
    (knotted.heap.mapping 2).Distinct ∧
    ∃ w', invoke "map.update" [.mapping 2, .mapping 2] knotted = .ok .none w' ∧
      w'.heap.mapping 2 = knotted.heap.mapping 2 := by
  have hb : (⟨"list.index", some 2, none, ListMethod.index⟩ : Builtin) ∈ standard.builtins := by
    rw [standard_eq]
    simp only [builtins, methods, listMethods, List.mem_append, List.mem_cons, true_or, or_true]
  have hd : (knotted.heap.mapping 1).Distinct := by
    refine List.Pairwise.cons (fun e he => ?_) (List.pairwise_singleton _ _)
    obtain rfl := List.mem_singleton.mp he
    rfl
  have htouch := builtins_touch_first_argument [.list 0, .string "k"] knotted
  have hone : (knotted.heap.mapping 0).Distinct := List.pairwise_singleton _ _
  have hnan : (knotted.heap.mapping 2).Distinct := List.pairwise_singleton _ _
  refine ⟨hb, by decide, ⟨_, _, rfl, ?_⟩, htouch.2.1 0 0 (by decide), hd, hone, ?_, hnan, ?_⟩
  · exact (htouch.1 _ hb).2.2 (by decide) _ _ rfl
  · obtain ⟨w', hcall, -, hentries, -⟩ := htouch.2.2 0 1 (by decide) hd
    exact ⟨w', hcall, (hentries hone).trans rfl⟩
  · obtain ⟨w', hcall, -, -, hself⟩ := htouch.2.2 2 2 (by decide) hnan
    exact ⟨w', hcall, hself rfl (List.forall_mem_singleton.mpr rfl)⟩

end Library

end Offside
