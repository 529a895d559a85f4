import Offside.Proofs.Equality

/-!
Data in a growing heap. What a value holds stays as it is when objects are added, and a value that
mirrors another, item by item and key by key, is equal to it.
-/

namespace Offside

/-- Data that hold no others and can be keys of Mappings. -/
def Value.IsScalar : Value → Prop
  | integer _ | boolean _ | string _ | none => True
  | _ => False

namespace Heap

/-- A later heap: objects may be added, and none is changed. -/
structure Extends (h h' : Heap) : Prop where
  lists : ∀ i, i < h.lists.size → i < h'.lists.size ∧ h'.list i = h.list i
  mappings : ∀ i, i < h.mappings.size → i < h'.mappings.size ∧ h'.mapping i = h.mapping i

/-- Finite data without Floats: Lists and Mappings of such data that do not contain themselves. -/
inductive Plain (h : Heap) : Value → Prop where
  | scalar {v : Value} : v.IsScalar → Plain h v
  | list {i : Nat} : i < h.lists.size → (∀ v ∈ (h.list i).toList, Plain h v) → Plain h (.list i)
  | mapping {i : Nat} : i < h.mappings.size → (h.mapping i).Distinct →
      (∀ e ∈ (h.mapping i).entries, e.1.IsScalar) → (∀ e ∈ (h.mapping i).entries, Plain h e.2) →
      Plain h (.mapping i)

/-- The same data: the same items in the same order, and the same keys in the same order. -/
inductive Mirrors (h : Heap) : Value → Value → Prop where
  | scalar {v : Value} : v.IsScalar → Mirrors h v v
  | list {i j : Nat} : i < h.lists.size → j < h.lists.size → (h.list i).size = (h.list j).size →
      (∀ p ∈ (h.list i).toList.zip (h.list j).toList, Mirrors h p.1 p.2) →
      Mirrors h (.list i) (.list j)
  | mapping {i j : Nat} : i < h.mappings.size → j < h.mappings.size →
      (h.mapping i).keys = (h.mapping j).keys →
      (∀ p ∈ (h.mapping i).entries.zip (h.mapping j).entries, Mirrors h p.1.2 p.2.2) →
      Mirrors h (.mapping i) (.mapping j)

variable {h h' h'' : Heap} {a b v : Value}

/-! ### Growth -/

theorem Extends.refl (h : Heap) : h.Extends h := ⟨fun _ hi => ⟨hi, rfl⟩, fun _ hi => ⟨hi, rfl⟩⟩

theorem Extends.trans (he : h.Extends h') (he' : h'.Extends h'') : h.Extends h'' := by
  constructor
  · intro i hi
    obtain ⟨hi', heq⟩ := he.lists i hi
    obtain ⟨hi'', heq'⟩ := he'.lists i hi'
    exact ⟨hi'', heq'.trans heq⟩
  · intro i hi
    obtain ⟨hi', heq⟩ := he.mappings i hi
    obtain ⟨hi'', heq'⟩ := he'.mappings i hi'
    exact ⟨hi'', heq'.trans heq⟩

theorem newList_spec (h : Heap) (items : Array Value) :
    h.Extends (h.newList items).2 ∧ (h.newList items).1 = .list h.lists.size ∧
      h.lists.size < (h.newList items).2.lists.size ∧
      (h.newList items).2.list h.lists.size = items := by
  refine ⟨⟨?_, fun i hi => ⟨hi, rfl⟩⟩, rfl, ?_, ?_⟩
  · intro i hi
    refine ⟨by simp only [newList, Array.size_push]; omega, ?_⟩
    simp only [newList, list, Array.getElem?_push]
    rw [if_neg (by omega)]
  · simp [newList]
  · simp [newList, list]

theorem newMapping_spec (h : Heap) (m : Mapping) :
    h.Extends (h.newMapping m).2 ∧ (h.newMapping m).1 = .mapping h.mappings.size ∧
      h.mappings.size < (h.newMapping m).2.mappings.size ∧
      (h.newMapping m).2.mapping h.mappings.size = m := by
  refine ⟨⟨fun i hi => ⟨hi, rfl⟩, ?_⟩, rfl, ?_, ?_⟩
  · intro i hi
    refine ⟨by simp only [newMapping, Array.size_push]; omega, ?_⟩
    simp only [newMapping, mapping, Array.getElem?_push]
    rw [if_neg (by omega)]
  · simp [newMapping]
  · simp [newMapping, mapping]

theorem Plain.mono (he : h.Extends h') (hv : h.Plain v) : h'.Plain v := by
  induction hv with
  | scalar hs => exact .scalar hs
  | list hi _ ih =>
    obtain ⟨hi', heq⟩ := he.lists _ hi
    exact .list hi' (by rw [heq]; exact ih)
  | mapping hi hd hk _ ih =>
    obtain ⟨hi', heq⟩ := he.mappings _ hi
    rw [← heq] at hd hk ih
    exact .mapping hi' hd hk ih

theorem Mirrors.mono (he : h.Extends h') (hab : h.Mirrors a b) : h'.Mirrors a b := by
  induction hab with
  | scalar hs => exact .scalar hs
  | list hi hj hs _ ih =>
    obtain ⟨hi', hei⟩ := he.lists _ hi
    obtain ⟨hj', hej⟩ := he.lists _ hj
    rw [← hei, ← hej] at hs ih
    exact .list hi' hj' hs ih
  | mapping hi hj hk _ ih =>
    obtain ⟨hi', hei⟩ := he.mappings _ hi
    obtain ⟨hj', hej⟩ := he.mappings _ hj
    rw [← hei, ← hej] at hk ih
    exact .mapping hi' hj' hk ih

theorem mirrors_list {i j : Nat} (hi : i < h.lists.size) (hj : j < h.lists.size)
    (hl : List.Forall₂ h.Mirrors (h.list i).toList (h.list j).toList) :
    h.Mirrors (.list i) (.list j) := by
  obtain ⟨hs, hz⟩ := List.forall₂_iff_zip.mp hl
  exact .list hi hj (by simpa using hs) fun p hp => hz hp

def MirrorsEntry (h : Heap) (e f : Value × Value) : Prop := e.1 = f.1 ∧ h.Mirrors e.2 f.2

theorem mirrorsEntry_keys {es fs : List (Value × Value)} (hl : List.Forall₂ h.MirrorsEntry es fs) :
    es.map (·.1) = fs.map (·.1) := by
  induction hl with
  | nil => rfl
  | cons he _ ih => rw [List.map_cons, List.map_cons, he.1, ih]

theorem mirrors_mapping {i j : Nat} (hi : i < h.mappings.size) (hj : j < h.mappings.size)
    (hl : List.Forall₂ h.MirrorsEntry (h.mapping i).entries (h.mapping j).entries) :
    h.Mirrors (.mapping i) (.mapping j) := by
  obtain ⟨-, hz⟩ := List.forall₂_iff_zip.mp hl
  exact .mapping hi hj (mirrorsEntry_keys hl) fun p hp => (hz hp).2

/-! ### Equality -/

theorem scalar_sameKey (hv : v.IsScalar) : v.sameKey v = true := by
  cases v <;> first | exact hv.elim | exact beq_self_eq_true _ | rfl

theorem scalar_identical (hv : v.IsScalar) : v.identical v = true := by
  cases v <;> first | exact hv.elim | exact beq_self_eq_true _ | rfl

/-- Entries of the same keys are found where their counterparts are. -/
theorem counterpart_found {m n : Mapping} (hk : m.keys = n.keys) (hd : n.Distinct)
    (hs : ∀ e ∈ n.entries, e.1.IsScalar) {e : Value × Value} (he : e ∈ m.entries) :
    ∃ f, (e, f) ∈ m.entries.zip n.entries ∧ n.get? e.1 = some f.2 := by
  have hlen : m.entries.length = n.entries.length := by
    simpa [Mapping.keys] using congrArg List.length hk
  obtain ⟨i, hi, rfl⟩ := List.mem_iff_getElem.mp he
  have hj : i < n.entries.length := hlen ▸ hi
  have hkey : m.entries[i].1 = n.entries[i].1 := by
    have := congrArg (fun l : List Value => l[i]?) hk
    simpa [Mapping.keys, hi, hj] using this
  have hmem : n.entries[i] ∈ n.entries := List.getElem_mem hj
  refine ⟨n.entries[i], ?_, ?_⟩
  · exact List.mem_iff_getElem.mpr ⟨i, by simp [hi, hj], by simp⟩
  · rw [hkey]
    exact Mapping.get_of_mem hd hmem (scalar_sameKey (hs _ hmem))

theorem equalWithin_of_mirrors (hab : h.Mirrors a b) (hb : h.Plain b) (fuel : Nat) (met : Met) :
    (h.equalWithin fuel a b met).1 = true := by
  induction hab generalizing fuel met with
  | @scalar v hs =>
    cases fuel with
    | zero => rfl
    | succ fuel =>
      have hatom : ¬ BothContainers v v := by
        cases v <;> first | exact hs.elim | exact id
      rw [equalWithin_atom h fuel hatom]
      exact scalar_identical hs
  | @list i j _ _ hs _ ih =>
    cases fuel with
    | zero => rfl
    | succ fuel =>
      cases hb with
      | scalar hb => exact hb.elim
      | list _ hp =>
        rw [equalWithin_list]
        split_ifs
        · rfl
        · refine equalItems_complete (R := fun a b => ∀ met, (h.equalWithin fuel a b met).1 = true)
            (fun a b met hab => hab met) (List.forall₂_iff_zip.mpr ⟨by simpa using hs, ?_⟩) _
          intro a b hmem met
          exact ih (a, b) hmem (hp b (List.of_mem_zip hmem).2) fuel met
  | @mapping i j _ _ hk _ ih =>
    cases fuel with
    | zero => rfl
    | succ fuel =>
      cases hb with
      | scalar hb => exact hb.elim
      | mapping _ hd hscalar hp =>
        have hsize : (h.mapping i).size = (h.mapping j).size := by
          simpa [Mapping.keys, Mapping.size] using congrArg List.length hk
        rw [equalWithin_mapping]
        split_ifs
        · rfl
        · refine equalEntries_complete
            (R := fun a b => ∀ met, (h.equalWithin fuel a b met).1 = true)
            (fun a b met hab => hab met) ?_ _
          intro e he
          obtain ⟨f, hmem, hget⟩ := counterpart_found hk hd hscalar he
          exact ⟨f.2, hget, fun met => ih (e, f) hmem (hp f (List.of_mem_zip hmem).2) fuel met⟩

theorem equal_of_mirrors (hab : h.Mirrors a b) (hb : h.Plain b) : h.equal a b = true :=
  equalWithin_of_mirrors hab hb _ _

end Heap

end Offside
