import Offside.Proofs.Evaluator.Script
import Offside.Proofs.Library.Editing
import Offside.Proofs.Mapping.History

/-!
Indices and keys. An Integer denotes one position of a sequence, counted from the end if it is
negative, or it is refused; reading, writing, deleting and both ways to pop an item agree on which.
A key of a Mapping denotes its entry in the same way for reading, writing and deleting.
-/

namespace Offside

namespace Operation

/-- An Integer that denotes a position in a sequence of that length. -/
def InRange (length : Nat) (i : Int) : Prop := -(length : Int) ≤ i ∧ i < length

instance (length : Nat) (i : Int) : Decidable (InRange length i) :=
  inferInstanceAs (Decidable (_ ∧ _))

/-- The position that an Integer in range denotes. -/
def place (length : Nat) (i : Int) : Nat := (if 0 ≤ i then i else i + length).toNat

variable {h : Heap} {id m n : Nat} {i : Int} {key k : Value}

theorem place_lt (hi : InRange n i) : place n i < n := by
  obtain ⟨hlow, hhigh⟩ := hi
  unfold place
  split <;> omega

/-- A position denotes itself. -/
theorem place_place (n : Nat) (i : Int) : place n (place n i) = place n i := by
  rw [place, if_pos (Int.natCast_nonneg _), Int.toNat_natCast]

theorem inRange_place (hi : InRange n i) : InRange n (place n i) := by
  have := place_lt hi
  unfold InRange
  omega

theorem position_eq (sequence : String) (n : Nat) (i : Int) :
    position sequence n (.integer i) =
      if InRange n i then .ok (place n i) else refuse (.indexOutOfRange sequence i) := by
  unfold position InRange place
  dsimp only
  by_cases hi : 0 ≤ i
  · have hneg : ¬ i < 0 := by omega
    rw [if_neg hneg, if_pos hi]
    exact if_congr (by omega) rfl rfl
  · have hneg : i < 0 := by omega
    rw [if_pos hneg, if_neg hi]
    exact if_congr (by omega) rfl rfl

/-! ### Items of a List -/

/-- The heap with an item of a List replaced. -/
def replacing (h : Heap) (id p : Nat) (v : Value) : Heap := h.modifyList id (·.setIfInBounds p v)

/-- The heap with an item of a List taken out. -/
def removing (h : Heap) (id p : Nat) : Heap := h.modifyList id (·.eraseIdxIfInBounds p)

theorem getItem_list (h : Heap) (id : Nat) (i : Int) :
    getItem h (.list id) (.integer i) =
      if InRange (h.list id).size i then
        .ok ((h.list id)[place (h.list id).size i]?.getD .none)
      else refuse (.indexOutOfRange "List" i) := by
  unfold getItem
  dsimp only
  rw [position_eq]
  split <;> rfl

theorem itemSetting_list (h : Heap) (id : Nat) (i : Int) (v : Value) :
    itemSetting h (.list id) (.integer i) v =
      if InRange (h.list id).size i then
        .ok (replacing · id (place (h.list id).size i) v)
      else refuse (.indexOutOfRange "List" i) := by
  unfold itemSetting
  dsimp only
  rw [position_eq]
  split <;> rfl

theorem setItem_list (h : Heap) (id : Nat) (i : Int) (v : Value) :
    setItem h (.list id) (.integer i) v =
      if InRange (h.list id).size i then
        .ok (replacing h id (place (h.list id).size i) v)
      else refuse (.indexOutOfRange "List" i) := by
  rw [setItem, itemSetting_list]
  split <;> rfl

theorem itemDeletion_list (h : Heap) (id : Nat) (i : Int) :
    itemDeletion h (.list id) (.integer i) =
      if InRange (h.list id).size i then
        .ok (removing · id (place (h.list id).size i))
      else refuse (.indexOutOfRange "List" i) := by
  unfold itemDeletion
  dsimp only
  rw [position_eq]
  split <;> rfl

theorem deleteItem_list (h : Heap) (id : Nat) (i : Int) :
    deleteItem h (.list id) (.integer i) =
      if InRange (h.list id).size i then
        .ok (removing h id (place (h.list id).size i))
      else refuse (.indexOutOfRange "List" i) := by
  rw [deleteItem, itemDeletion_list]
  split <;> rfl

/-- A List with an index in range is there. -/
theorem lt_of_inRange (hi : InRange (h.list id).size i) : id < h.lists.size := by
  by_contra hid
  have hnil : h.list id = #[] := by
    rw [Heap.list, Array.getElem?_eq_none (Nat.le_of_not_lt hid)]
    rfl
  have := place_lt hi
  rw [hnil] at this
  exact absurd this (Nat.not_lt_zero _)

theorem list_replacing (hid : id < h.lists.size) (p : Nat) (v : Value) :
    (replacing h id p v).list id = (h.list id).setIfInBounds p v :=
  Heap.list_modifyList hid _

theorem list_removing (hid : id < h.lists.size) (p : Nat) :
    (removing h id p).list id = (h.list id).eraseIdxIfInBounds p :=
  Heap.list_modifyList hid _

/-- A new item is read by every Integer that denotes its position. -/
theorem getItem_replacing {j : Int} (hi : InRange (h.list id).size i)
    (hj : InRange (h.list id).size j) (hplace : place (h.list id).size j = place (h.list id).size i)
    (v : Value) :
    getItem (replacing h id (place (h.list id).size i) v) (.list id) (.integer j) = .ok v := by
  rw [getItem_list, list_replacing (lt_of_inRange hi), Array.size_setIfInBounds, if_pos hj, hplace,
    Array.getElem?_setIfInBounds_self_of_lt (place_lt hi)]
  rfl

/-! ### Entries of a Mapping -/

theorem hashable_of_sameKey (h : k.sameKey key = true) : k.isHashable = true := by
  cases k <;> first | rfl | cases h

theorem getItem_mapping (h : Heap) (m : Nat) (k : Value) :
    getItem h (.mapping m) k =
      if k.isHashable then ((h.mapping m).get? k).elim (refuse (.keyNotFound k.atomText)) .ok
      else refuse (.unhashable k.kind) := by
  unfold getItem checkKey
  dsimp only
  split
  · cases (h.mapping m).get? k <;> rfl
  · rfl

/-- Reading after a change of the entry under one key alone. -/
theorem getItem_modifyMapping (hm : m < h.mappings.size) {f : Mapping → Mapping} {v : Option Value}
    (hf : ∀ k, (f (h.mapping m)).get? k = if k.sameKey key then v else (h.mapping m).get? k)
    (k : Value) :
    getItem (h.modifyMapping m f) (.mapping m) k =
      if k.sameKey key then v.elim (refuse (.keyNotFound k.atomText)) .ok
      else getItem h (.mapping m) k := by
  rw [getItem_mapping, getItem_mapping, Heap.mapping_modifyMapping hm, hf]
  by_cases hk : k.sameKey key = true
  · rw [if_pos hk, if_pos hk, if_pos (hashable_of_sameKey hk)]
  · rw [if_neg hk, if_neg hk]

theorem setItem_mapping (hkey : key.isHashable = true) (h : Heap) (m : Nat) (v : Value) :
    setItem h (.mapping m) key v = .ok (h.modifyMapping m (·.set key v)) := by
  unfold setItem itemSetting checkKey
  dsimp only
  rw [if_pos hkey]
  rfl

theorem deleteItem_mapping (hkey : key.isHashable = true) (h : Heap) (m : Nat) :
    deleteItem h (.mapping m) key =
      if (h.mapping m).contains key then .ok (h.modifyMapping m (·.erase key))
      else refuse (.keyNotFound key.atomText) := by
  unfold deleteItem itemDeletion checkKey
  dsimp only
  rw [if_pos hkey]
  change (if (h.mapping m).contains key = true then _ else _ : Result Edit) >>= _ = _
  split <;> rfl

theorem get_erase {m : Mapping} (hd : m.Distinct) (key k : Value) :
    (m.erase key).get? k = if k.sameKey key then none else m.get? k := by
  rw [Mapping.get?, Mapping.find_erase hd]
  split <;> rfl

end Operation

namespace Library

open Operation Offside.Action

variable {w : World} {id : Nat} {i : Int}

/-- Both ways to pop an item of a List. -/
def pops : List String := ["pop", "list.pop"]

theorem invoke_pop (w : World) (id : Nat) (index : Option Value) :
    ∀ name ∈ pops, invoke name (.list id :: index.toList) w = popItem id index w := by
  have hpop : (⟨"pop", some 1, some 2, pop⟩ : Builtin) ∈ builtins := by
    simp only [builtins, core, List.mem_append, List.mem_cons, true_or, or_true]
  have hmethod : (⟨"list.pop", some 1, some 2, ListMethod.pop⟩ : Builtin) ∈ builtins := by
    simp only [builtins, methods, listMethods, List.mem_append, List.mem_cons, true_or, or_true]
  intro name hname
  rcases List.mem_pair.mp hname with rfl | rfl
  · rw [congrFun (invoke_builtin hpop _) w]
    cases index <;> rfl
  · rw [congrFun (invoke_builtin hmethod _) w]
    cases index <;> rfl

/-- An item is popped at the position that is read, which is then deleted. -/
theorem popItem_integer (w : World) (id : Nat) (i : Int) :
    popItem id (some (.integer i)) w =
      if (w.heap.list id).size = 0 then .error (.failure .popFromEmpty) w
      else if InRange (w.heap.list id).size i then
        .ok ((w.heap.list id)[place (w.heap.list id).size i]?.getD .none)
          { w with heap := removing w.heap id (place (w.heap.list id).size i) }
      else .error (.failure (.operation (.indexOutOfRange "List" i))) w := by
  have hstart : popItem id (some (.integer i)) w =
      (do
        if (w.heap.list id).size = 0 then fail .popFromEmpty
        let p ← ofOperation (position "List" (w.heap.list id).size (.integer i))
        let item := ((← heap).list id)[p]?.getD .none
        modifyHeap (·.modifyList id (·.eraseIdxIfInBounds p))
        return item : Action Value) w := rfl
  rw [hstart, position_eq]
  by_cases hsize : (w.heap.list id).size = 0
  · rw [if_pos hsize, if_pos hsize]
    rfl
  · rw [if_neg hsize, if_neg hsize]
    by_cases hi : InRange (w.heap.list id).size i
    · rw [if_pos hi, if_pos hi]
      rfl
    · rw [if_neg hi, if_neg hi]
      rfl

theorem popItem_last (w : World) (id : Nat) :
    popItem id none w = popItem id (some (.integer (-1))) w := rfl

/-- What reading, writing, deleting and popping do with an Integer that denotes a position of a
List: they act on the item there, and on no other. -/
structure ActsAt (w : World) (id : Nat) (i : Int) (p : Nat) (item : Value) : Prop where
  held : (w.heap.list id)[p]? = some item
  read : getItem w.heap (.list id) (.integer i) = .ok item
  written : ∀ v, ∃ h, setItem w.heap (.list id) (.integer i) v = .ok h ∧
    w.heap.Spares (.list id) h ∧ (h.list id).toList = (w.heap.list id).toList.set p v ∧
    getItem h (.list id) (.integer i) = .ok v ∧ getItem h (.list id) (.integer p) = .ok v
  taken : ∃ h, deleteItem w.heap (.list id) (.integer i) = .ok h ∧ w.heap.Spares (.list id) h ∧
    (h.list id).toList =
      (w.heap.list id).toList.take p ++ (w.heap.list id).toList.drop (p + 1) ∧
    ∀ name ∈ pops, invoke name [.list id, .integer i] w = .ok item { w with heap := h }

/-- What they do with any other Integer: they are refused, and the List stays as it was, also when a
program gets no further. -/
structure Refused (w : World) (id : Nat) (i : Int) : Prop where
  read : getItem w.heap (.list id) (.integer i) = refuse (.indexOutOfRange "List" i)
  written : ∀ v, setItem w.heap (.list id) (.integer i) v = refuse (.indexOutOfRange "List" i)
  deleted : deleteItem w.heap (.list id) (.integer i) = refuse (.indexOutOfRange "List" i)
  popped : ∀ name ∈ pops, invoke name [.list id, .integer i] w =
    .error (.failure (if (w.heap.list id).size = 0 then .popFromEmpty
      else .operation (.indexOutOfRange "List" i))) w
  kept : ∀ st : State, st.world = w → ∃ e : Stop,
    Evaluator.readItem (.list id) (.integer i) st = .error e st ∧
      (∀ v, Evaluator.writeItem (.list id) (.integer i) v st = .error e st) ∧
      Evaluator.deleteItem (.list id) (.integer i) st = .error e st

/-- What they do with a key that a Mapping can have. The key is the same as itself, also if it is a
NaN, and as every value that it equals. -/
structure ActsUnder (h : Heap) (m : Nat) (key : Value) : Prop where
  same : key.sameKey key = true ∧ ∀ k, h.equal key k = true → k.sameKey key = true
  written : ∀ v, ∃ h', setItem h (.mapping m) key v = .ok h' ∧ h.Spares (.mapping m) h' ∧
    getItem h' (.mapping m) key = .ok v ∧
    ∀ k, getItem h' (.mapping m) k =
      if k.sameKey key then .ok v else getItem h (.mapping m) k
  deleted : (h.mapping m).Distinct → (h.mapping m).contains key = true → ∃ h',
    deleteItem h (.mapping m) key = .ok h' ∧ h.Spares (.mapping m) h' ∧
      getItem h' (.mapping m) key = refuse (.keyNotFound key.atomText) ∧
      ∀ k, getItem h' (.mapping m) k =
        if k.sameKey key then refuse (.keyNotFound k.atomText) else getItem h (.mapping m) k
  absent : (h.mapping m).contains key = false →
    getItem h (.mapping m) key = refuse (.keyNotFound key.atomText) ∧
      deleteItem h (.mapping m) key = refuse (.keyNotFound key.atomText)

theorem actsAt_place (hi : InRange (w.heap.list id).size i) :
    ∃ item, ActsAt w id i (place (w.heap.list id).size i) item := by
  have hid := lt_of_inRange hi
  have hp := place_lt hi
  have hheld := Array.getElem?_eq_getElem hp
  refine ⟨(w.heap.list id)[place (w.heap.list id).size i], hheld, ?_, fun v => ?_, ?_⟩
  · rw [getItem_list, if_pos hi, hheld]
    rfl
  · refine ⟨replacing w.heap id (place (w.heap.list id).size i) v, by rw [setItem_list, if_pos hi],
      w.heap.modifyList_spares id _, ?_, getItem_replacing hi hi rfl v,
      getItem_replacing hi (inRange_place hi) (place_place _ i) v⟩
    rw [list_replacing hid, Array.toList_setIfInBounds]
  · refine ⟨removing w.heap id (place (w.heap.list id).size i), by rw [deleteItem_list, if_pos hi],
      w.heap.modifyList_spares id _, ?_, fun name hname => ?_⟩
    · rw [list_removing hid, Array.toList_eraseIdxIfInBounds, List.eraseIdx_eq_take_drop_succ]
    · have hpop := popItem_integer w id i
      rw [if_neg (Nat.zero_lt_of_lt hp).ne', if_pos hi, hheld] at hpop
      exact (invoke_pop w id (some (.integer i)) name hname).trans hpop

theorem refused_outside (hi : ¬ InRange (w.heap.list id).size i) : Refused w id i := by
  refine ⟨by rw [getItem_list, if_neg hi], fun v => by rw [setItem_list, if_neg hi],
    by rw [deleteItem_list, if_neg hi], fun name hname => ?_, ?_⟩
  · have hpop := popItem_integer w id i
    rw [if_neg hi] at hpop
    refine (invoke_pop w id (some (.integer i)) name hname).trans (hpop.trans ?_)
    split <;> rfl
  · rintro st rfl
    refine ⟨.error { cause := .indexOutOfRange "List" i }, ?_, fun v => ?_, ?_⟩
    · change Run.ofOperation (getItem st.world.heap (.list id) (.integer i)) st = _
      rw [getItem_list, if_neg hi]
      rfl
    · change (Run.ofOperation (itemSetting st.world.heap (.list id) (.integer i) v) >>=
        Run.modifyHeap) st = _
      rw [itemSetting_list, if_neg hi]
      rfl
    · change (Run.ofOperation (itemDeletion st.world.heap (.list id) (.integer i)) >>=
        Run.modifyHeap) st = _
      rw [itemDeletion_list, if_neg hi]
      rfl

theorem actsUnder_key {h : Heap} {m : Nat} {key : Value} (hm : m < h.mappings.size)
    (hkey : key.isHashable = true) : ActsUnder h m key := by
  have hself : key.sameKey key = true := Value.sameKey_self hkey
  refine ⟨⟨hself, fun k hk => ?_⟩, fun v => ?_, fun hd hin => ?_, fun habsent => ?_⟩
  · exact Value.sameKey_symm (Mapping.sameKey_of_equal hkey hk)
  · have hget := getItem_modifyMapping (f := (·.set key v)) (v := some v) hm
      (Mapping.get_set (h.mapping m) key v)
    refine ⟨_, setItem_mapping hkey h m v, h.modifyMapping_spares m _, ?_, hget⟩
    rw [hget, if_pos hself]
    rfl
  · have hget := getItem_modifyMapping (f := (·.erase key)) (v := none) hm (get_erase hd key)
    refine ⟨_, by rw [deleteItem_mapping hkey, if_pos hin], h.modifyMapping_spares m _, ?_, hget⟩
    rw [hget, if_pos hself]
    rfl
  · have hnone : (h.mapping m).get? key = none := by
      rw [Mapping.get?, Option.map_eq_none_iff]
      exact Option.not_isSome_iff_eq_none.mp (Bool.not_eq_true _ ▸ habsent)
    refine ⟨?_, by rw [deleteItem_mapping hkey, habsent, if_neg Bool.false_ne_true]⟩
    rw [getItem_mapping, if_pos hkey, hnone]
    rfl

/-- All operations on the items of a List agree on what an Integer denotes: the position counted
from its front, or from its end if it is negative, as long as there is one. Popping without an index
is popping the last item. Reading a String goes by the same rule, and a Mapping keeps one value for
equal keys. -/
theorem index_operations_agree (w : World) (id : Nat) (i : Int) :
    (InRange (w.heap.list id).size i →
        ∃ item, ActsAt w id i (place (w.heap.list id).size i) item) ∧
      (¬ InRange (w.heap.list id).size i → Refused w id i) ∧
      (∀ name ∈ pops, invoke name [.list id] w = invoke name [.list id, .integer (-1)] w) ∧
      (∀ s : String, if InRange s.toList.length i then
          ∃ c, s.toList[place s.toList.length i]? = some c ∧
            getItem w.heap (.string s) (.integer i) = .ok (.string (String.singleton c))
        else getItem w.heap (.string s) (.integer i) = refuse (.indexOutOfRange "String" i)) ∧
      ∀ m < w.heap.mappings.size, ∀ key : Value, key.isHashable = true →
        ActsUnder w.heap m key := by
  refine ⟨actsAt_place, refused_outside, fun name hname => ?_, fun s => ?_,
    fun m hm key hkey => actsUnder_key hm hkey⟩
  · have hnone := invoke_pop w id none name hname
    have hlast := invoke_pop w id (some (.integer (-1))) name hname
    exact hnone.trans ((popItem_last w id).trans hlast.symm)
  · split
    · next hi =>
      have hheld := List.getElem?_eq_getElem (place_lt hi)
      refine ⟨_, hheld, ?_⟩
      unfold getItem
      dsimp only
      rw [position_eq, if_pos hi]
      simp only [bind, Except.bind, hheld]
      rfl
    · next hi =>
      unfold getItem
      dsimp only
      rw [position_eq, if_neg hi]
      rfl

/-- A List of three items and a Mapping of two entries, one of them under a NaN. -/
def shelf : World :=
  { (default : World) with
    heap := {
      lists := #[#[.integer 1, .integer 2, .integer 3]]
      mappings := #[⟨[(.string "a", .integer 1), (.nan .constant, .none)]⟩] } }

/-- The least index acts on the first item, the length is refused, what was under a key is gone when
it is deleted, and a NaN is found again. -/
theorem shelf_indices :
    (∃ item, ActsAt shelf 0 (-3) 0 item) ∧ Refused shelf 0 3 ∧
      (∃ h, deleteItem shelf.heap (.mapping 0) (.string "a") = .ok h ∧
        getItem h (.mapping 0) (.string "a") = refuse (.keyNotFound "\"a\"")) ∧
      ∃ h, setItem shelf.heap (.mapping 0) (.nan .constant) (.integer 2) = .ok h ∧
        getItem h (.mapping 0) (.nan .constant) = .ok (.integer 2) := by
  obtain ⟨hinside, -, -, -, hkeys⟩ := index_operations_agree shelf 0 (-3)
  obtain ⟨-, houtside, -⟩ := index_operations_agree shelf 0 3
  have hd : (shelf.heap.mapping 0).Distinct :=
    List.pairwise_pair.mpr rfl
  obtain ⟨h, hdeleted, -, hgone, -⟩ := (hkeys 0 (by decide) (.string "a") rfl).deleted hd rfl
  obtain ⟨h', hset, -, hget, -⟩ :=
    (hkeys 0 (by decide) (.nan .constant) rfl).written (.integer 2)
  exact ⟨hinside (by decide), houtside (by decide), ⟨h, hdeleted, hgone⟩, h', hset, hget⟩

end Library

end Offside
