import Offside.Proofs.Key

/-!
What a Mapping holds after keys are set. Every key is held once; a key that is set has the new
value and all others keep theirs.
-/

namespace Offside.Mapping

variable {m : Mapping} {key v : Value}

theorem set_new (h : ∀ e ∈ m.entries, key.sameKey e.1 = false) :
    m.set key v = ⟨m.entries ++ [(key, v)]⟩ := by
  have hn : m.contains key = false := by
    have := get_none_iff.mpr h
    simpa [contains, get?] using this
  rw [set, if_neg (by simp [hn])]

theorem setAll_distinct (es : List (Value × Value)) {fs : List (Value × Value)}
    (h : Distinct ⟨es ++ fs⟩) :
    setAll ⟨es⟩ fs = ⟨es ++ fs⟩ := by
  induction fs generalizing es with
  | nil => simp [setAll]
  | cons f fs ih =>
    have hnew : ∀ e ∈ es, f.1.sameKey e.1 = false := by
      intro e he
      rw [Value.sameKey_comm]
      exact (List.pairwise_append.mp h).2.2 e he f List.mem_cons_self
    have hstep : setAll ⟨es⟩ (f :: fs) = setAll ⟨es ++ [f]⟩ fs := by
      rw [setAll, List.foldl_cons, set_new hnew]
      rfl
    rw [hstep, ih _ (by simpa [Distinct] using h)]
    simp

theorem ofEntries_distinct {es : List (Value × Value)} (h : Distinct ⟨es⟩) : ofEntries es = ⟨es⟩ :=
  setAll_distinct [] h

/-! ### One key -/

theorem contains_iff : m.contains key = true ↔ ∃ e ∈ m.entries, key.sameKey e.1 = true := by
  simp [contains, find?]

/-- A key that is there keeps its place. -/
theorem mem_replaceIn {es : List (Value × Value)} {e : Value × Value}
    (h : e ∈ replaceIn key v es) : e = (key, v) ∨ e ∈ es := by
  induction es with
  | nil => cases h
  | cons f rest ih =>
    rw [replaceIn] at h
    split_ifs at h
    · rcases List.mem_cons.mp h with rfl | h
      · exact .inl rfl
      · exact .inr (List.mem_cons_of_mem _ h)
    · rcases List.mem_cons.mp h with rfl | h
      · exact .inr List.mem_cons_self
      · exact (ih h).imp id (List.mem_cons_of_mem _)

theorem find_replaceIn {es : List (Value × Value)} (h : ∃ e ∈ es, key.sameKey e.1 = true)
    (k : Value) :
    (replaceIn key v es).find? (fun e => k.sameKey e.1) =
      if k.sameKey key then some (key, v) else es.find? fun e => k.sameKey e.1 := by
  induction es with
  | nil => simp at h
  | cons f rest ih =>
    rw [replaceIn]
    by_cases hf : key.sameKey f.1 = true
    · rw [if_pos hf, List.find?_cons, List.find?_cons]
      cases hk : k.sameKey key with
      | true => rfl
      | false =>
        have hkf : k.sameKey f.1 = false := by
          rw [Value.sameKey_comm, ← Value.sameKey_congr hf, Value.sameKey_comm, hk]
        simp [hkf]
    · have hrest : ∃ e ∈ rest, key.sameKey e.1 = true := by simpa [hf] using h
      rw [if_neg hf, List.find?_cons, List.find?_cons, ih hrest]
      cases hkf : k.sameKey f.1 with
      | false => rfl
      | true =>
        have hk : k.sameKey key = false := by
          rw [Value.sameKey_congr hkf, Value.sameKey_comm]
          simpa using hf
        simp [hk]

/-- A key that is set is found with the new value, and every other key as it was. -/
theorem find_set (m : Mapping) (key v k : Value) :
    (m.set key v).find? k = if k.sameKey key then some (key, v) else m.find? k := by
  unfold set
  split_ifs with hc hk hk
  · rw [find?, find_replaceIn (contains_iff.mp hc), if_pos hk]
  · rw [find?, find_replaceIn (contains_iff.mp hc), if_neg hk]
    rfl
  · have hnone : m.entries.find? (fun e => k.sameKey e.1) = none := by
      rw [List.find?_eq_none]
      intro e he hke
      refine hc (contains_iff.mpr ⟨e, he, ?_⟩)
      rw [← Value.sameKey_congr hk, hke]
    simp [find?, List.find?_append, hnone, hk]
  · simp [find?, List.find?_append, hk]

theorem get_set (m : Mapping) (key v k : Value) :
    (m.set key v).get? k = if k.sameKey key then some v else m.get? k := by
  rw [get?, find_set]
  split_ifs <;> rfl

theorem replaceIn_distinct {es : List (Value × Value)} (hd : Distinct ⟨es⟩) :
    Distinct ⟨replaceIn key v es⟩ := by
  induction es with
  | nil => exact hd
  | cons f rest ih =>
    obtain ⟨hf, hrest⟩ := List.pairwise_cons.mp hd
    rw [replaceIn]
    split_ifs with hk
    · refine List.pairwise_cons.mpr ⟨fun e he => ?_, hrest⟩
      rw [Value.sameKey_congr hk, hf e he]
    · refine List.pairwise_cons.mpr ⟨fun e he => ?_, ih hrest⟩
      rcases mem_replaceIn he with rfl | he
      · rw [Value.sameKey_comm]
        simpa using hk
      · exact hf e he

theorem Distinct.set (hd : m.Distinct) (key v : Value) : (m.set key v).Distinct := by
  unfold Mapping.set
  split_ifs with hc
  · exact replaceIn_distinct hd
  · refine List.pairwise_append.mpr ⟨hd, List.pairwise_singleton _ _, fun e he f hf => ?_⟩
    obtain rfl := List.mem_singleton.mp hf
    rw [Value.sameKey_comm]
    by_contra hk
    exact hc (contains_iff.mpr ⟨e, he, by simpa using hk⟩)

theorem mem_set {e : Value × Value} (h : e ∈ (m.set key v).entries) :
    e = (key, v) ∨ e ∈ m.entries := by
  unfold set at h
  split_ifs at h
  · exact mem_replaceIn h
  · rcases List.mem_append.mp h with h | h
    · exact .inr h
    · exact .inl (List.mem_singleton.mp h)

/-! ### Many keys -/

theorem setAll_cons (m : Mapping) (e : Value × Value) (es : List (Value × Value)) :
    m.setAll (e :: es) = (m.set e.1 e.2).setAll es := rfl

theorem Distinct.setAll (hd : m.Distinct) (es : List (Value × Value)) : (m.setAll es).Distinct := by
  induction es generalizing m with
  | nil => exact hd
  | cons e es ih => exact ih (hd.set e.1 e.2)

theorem empty_distinct : empty.Distinct := List.Pairwise.nil

/-- The last value that a key is given, or the one it had. -/
theorem get_setAll (m : Mapping) (es : List (Value × Value)) (k : Value) :
    (m.setAll es).get? k =
      ((es.reverse.find? fun e => k.sameKey e.1).map (·.2)).or (m.get? k) := by
  induction es generalizing m with
  | nil => simp [setAll]
  | cons e es ih =>
    rw [setAll_cons, ih, get_set, List.reverse_cons, List.find?_append]
    cases es.reverse.find? fun e => k.sameKey e.1 with
    | some f => simp
    | none => cases hk : k.sameKey e.1 <;> simp [hk]

/-- Of entries whose keys differ, the one of a key is the value that it is given. -/
theorem get_setAll_distinct (m : Mapping) {n : Mapping} (hd : n.Distinct) (k : Value) :
    (m.setAll n.entries).get? k = (n.get? k).or (m.get? k) := by
  obtain ⟨es⟩ := n
  change (m.setAll es).get? k = _
  induction es generalizing m with
  | nil => simp [setAll, get?, find?]
  | cons e es ih =>
    obtain ⟨he, hes⟩ := List.pairwise_cons.mp hd
    rw [setAll_cons, ih _ hes, get_set]
    cases hk : k.sameKey e.1 with
    | false => simp [get?, find?, hk]
    | true =>
      have hnone : get? ⟨es⟩ k = none := by
        rw [get_none_iff]
        intro f hf
        rw [Value.sameKey_congr hk, he f hf]
      rw [hnone]
      simp [get?, find?, hk]

/-- What a Mapping takes over of another: the entries of its own keys in their places, then those of
other keys in their order. -/
def merged (m n : Mapping) : List (Value × Value) :=
  m.entries.map (fun e => (n.find? e.1).getD e) ++ n.entries.filter fun e => !m.contains e.1

theorem replaceIn_eq_map {es : List (Value × Value)} (hd : Distinct ⟨es⟩) (key v : Value) :
    replaceIn key v es = es.map fun e => if key.sameKey e.1 then (key, v) else e := by
  induction es with
  | nil => rfl
  | cons f rest ih =>
    obtain ⟨hf, hrest⟩ := List.pairwise_cons.mp hd
    rw [replaceIn, List.map_cons]
    split_ifs with hk
    · have hothers : ∀ e ∈ rest, ¬ key.sameKey e.1 = true := by
        intro e he
        rw [Value.sameKey_congr hk, hf e he]
        exact Bool.false_ne_true
      congr 1
      exact (List.map_id rest).symm.trans
        (List.map_congr_left fun e he => (if_neg (hothers e he)).symm)
    · rw [ih hrest]

theorem find_cons (e : Value × Value) (es : List (Value × Value)) (k : Value) :
    find? ⟨e :: es⟩ k = if k.sameKey e.1 then some e else find? ⟨es⟩ k := by
  rw [find?, List.find?_cons]
  cases k.sameKey e.1 <;> rfl

theorem contains_set (m : Mapping) (key v k : Value) :
    (m.set key v).contains k = (k.sameKey key || m.contains k) := by
  rw [contains, find_set, contains]
  cases k.sameKey key <;> rfl

theorem entries_setAll (hm : m.Distinct) {n : Mapping} (hn : n.Distinct) :
    (m.setAll n.entries).entries = m.merged n := by
  obtain ⟨es⟩ := n
  induction es generalizing m with
  | nil => simp [setAll, merged, find?]
  | cons e es ih =>
    obtain ⟨he, hes⟩ := List.pairwise_cons.mp hn
    have hnone : find? ⟨es⟩ e.1 = none := by
      refine List.find?_eq_none.mpr fun f hf => ?_
      rw [he f hf]
      exact Bool.false_ne_true
    -- the keys after the first are not the first, so that setting it does not change which are new
    have hnew : es.filter (fun f => !(m.set e.1 e.2).contains f.1) =
        es.filter fun f => !m.contains f.1 := by
      refine List.filter_congr fun f hf => ?_
      rw [contains_set, Value.sameKey_comm, he f hf, Bool.false_or]
    change ((m.set e.1 e.2).setAll es).entries = m.merged ⟨e :: es⟩
    rw [ih (hm.set e.1 e.2) hes, merged, merged, hnew, List.filter_cons]
    cases hc : m.contains e.1 with
    | true =>
      have hreplaced : (replaceIn e.1 e.2 m.entries).map (fun f => (find? ⟨es⟩ f.1).getD f) =
          m.entries.map fun f => (find? ⟨e :: es⟩ f.1).getD f := by
        rw [replaceIn_eq_map hm, List.map_map]
        refine List.map_congr_left fun f _ => ?_
        rw [Function.comp_apply, find_cons, Value.sameKey_comm f.1]
        split_ifs with hk
        · rw [hnone]
          rfl
        · rfl
      rw [set, if_pos hc, hreplaced]
      rfl
    | false =>
      have hkept : m.entries.map (fun f => (find? ⟨es⟩ f.1).getD f) =
          m.entries.map fun f => (find? ⟨e :: es⟩ f.1).getD f := by
        refine List.map_congr_left fun f hf => ?_
        rw [find_cons, if_neg]
        intro hk
        rw [contains_iff.mpr ⟨f, hf, Value.sameKey_symm hk⟩] at hc
        cases hc
      rw [set, if_neg (hc ▸ Bool.false_ne_true), List.map_append, hkept, List.map_singleton, hnone,
        List.append_assoc]
      rfl

/-- A Mapping takes nothing over of itself. -/
theorem merged_self (hd : m.Distinct) (hkeys : ∀ key ∈ m.keys, key.isHashable = true) :
    m.merged m = m.entries := by
  have hfind : ∀ e ∈ m.entries, m.find? e.1 = some e :=
    fun e he => find_of_mem hd he (Value.sameKey_self (hkeys _ (List.mem_map_of_mem he)))
  have hold : m.entries.map (fun e => (m.find? e.1).getD e) = m.entries :=
    (List.map_congr_left fun e he => by rw [hfind e he]; rfl).trans (List.map_id _)
  have hnew : m.entries.filter (fun e => !m.contains e.1) = [] := by
    refine List.filter_eq_nil_iff.mpr fun e he => ?_
    rw [contains, hfind e he]
    exact Bool.false_ne_true
  rw [merged, hold, hnew, List.append_nil]

end Offside.Mapping
