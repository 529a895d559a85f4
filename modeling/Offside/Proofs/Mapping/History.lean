import Offside.Operation.Item
import Offside.Proofs.Equality
import Offside.Proofs.Mapping

/-!
Mappings and what was done to them. A key has the value that was set last under an equal one, unless
it was taken away since. Keys stand in the order in which they were first set since they were last
absent; setting one again changes the entry and not its place.
-/

namespace Offside

/-- A value that can be a key, but for a NaN: as a key that is the object that it is, and as a value
it equals nothing. -/
structure Value.IsKey (v : Value) : Prop where
  hashable : v.isHashable = true
  number : ∀ x, v = .float x → x.isNaN = false
  noObject : ∀ object, v ≠ .nan object

namespace Mapping

inductive Change where
  | set (key value : Value)
  | erase (key : Value)
  | clear

namespace Change

def key? : Change → Option Value
  | set key _ | erase key => some key
  | clear => none

/-- The change puts an entry under the key. -/
def Sets (key : Value) : Change → Prop
  | set k _ => key.sameKey k = true
  | _ => False

/-- The change leaves nothing under the key. -/
def Removes (key : Value) : Change → Prop
  | set .. => False
  | erase k => key.sameKey k = true
  | clear => True

end Change

def apply (m : Mapping) : Change → Mapping
  | .set key value => m.set key value
  | .erase key => m.erase key
  | .clear => empty

/-- The Mapping that the changes make of an empty one. -/
def after (changes : List Change) : Mapping := changes.foldl apply empty

/-- The entry set last under the key, if nothing has taken it away since. -/
def Current (changes : List Change) (key : Value) (e : Value × Value) : Prop :=
  ∃ earlier later, changes = earlier ++ .set e.1 e.2 :: later ∧ key.sameKey e.1 = true ∧
    ∀ c ∈ later, ¬ c.Sets key ∧ ¬ c.Removes key

/-- The key was absent before the change of that number, which set it, and has been there since. -/
def HeldSince (changes : List Change) (key : Value) (n : Nat) : Prop :=
  ∃ earlier c later, changes = earlier ++ c :: later ∧ earlier.length = n ∧ c.Sets key ∧
    (∀ e, ¬ Current earlier key e) ∧ ∀ c ∈ later, ¬ c.Removes key

/-- The Mapping holds what the changes have left, in its order. -/
structure Reflects (changes : List Change) (m : Mapping) : Prop where
  keys : ∀ key ∈ m.keys, key.IsKey
  distinct : m.Distinct
  find : ∀ key e, m.find? key = some e ↔ Current changes key e
  order : m.keys.Pairwise fun a b =>
    ∀ i j, HeldSince changes a i → HeldSince changes b j → i < j

variable {m : Mapping} {changes : List Change} {c : Change} {key k v : Value} {e : Value × Value}
  {i j n : Nat}

/-! ### Keys -/

/-- Keys are equal as values exactly if they are the same key. -/
theorem equal_key (h : Heap) {a b : Value} (ha : a.IsKey) : h.equal a b = a.sameKey b := by
  have hatom : ¬ Heap.BothContainers a b := by
    cases a <;> first | exact id | exact absurd ha.hashable Bool.false_ne_true
  rw [Heap.equal, Heap.equalWithin_atom h _ hatom]
  cases a with
  | float x =>
    cases b with
    | float y =>
      simp only [Value.identical, Value.sameKey]
      rw [ha.number x rfl, Bool.false_and, Bool.or_false]
    | _ => rfl
  | nan object => exact absurd rfl (ha.noObject object)
  | integer | boolean | string | none => rfl
  | _ => exact absurd ha.hashable Bool.false_ne_true

/-- Equal keys are the same key, also next to a NaN. -/
theorem sameKey_of_equal {h : Heap} {a b : Value} (ha : a.isHashable = true)
    (hequal : h.equal a b = true) : a.sameKey b = true := by
  by_cases hkey : a.IsKey
  · rwa [equal_key h hkey] at hequal
  · have hatom : ¬ Heap.BothContainers a b := by
      cases a <;> first | exact id | exact absurd ha Bool.false_ne_true
    rw [Heap.equal, Heap.equalWithin_atom h _ hatom] at hequal
    cases a with
    | float x =>
      cases b with
      | float y => exact (float_key_iff x y).mpr (.inl hequal)
      | _ => cases hequal
    | nan => cases b <;> cases hequal
    | integer | boolean | string | none => exact absurd ⟨rfl, nofun, nofun⟩ hkey
    | _ => cases ha

/-- A key is in a Mapping exactly if it is in the List of its keys. -/
theorem contains_keys {h : Heap} (hkeys : ∀ key ∈ m.keys, key.IsKey)
    (hk : key.isHashable = true) (hm : h.mapping i = m) (hl : (h.list j).toList = m.keys) :
    Operation.contains h (.mapping i) key = Operation.contains h (.list j) key := by
  have hlist : Operation.contains h (.list j) key =
      .ok (m.keys.any fun element => h.equal element key) := by
    rw [← hl, Array.any_toList]
    rfl
  have hmapping : Operation.contains h (.mapping i) key = .ok (m.contains key) := by
    rw [Operation.contains, Operation.checkKey, if_pos hk, hm]
    rfl
  have heq : ∀ element ∈ m.keys, h.equal element key = key.sameKey element := fun element he => by
    rw [equal_key h (hkeys element he), Value.sameKey_comm]
  have hany : m.keys.any (fun element => h.equal element key) = m.keys.any (key.sameKey ·) := by
    rw [Bool.eq_iff_iff, List.any_eq_true, List.any_eq_true]
    exact exists_congr fun element => and_congr_right fun he => by rw [heq element he]
  have hcontains : m.contains key = m.keys.any (key.sameKey ·) := by
    rw [Bool.eq_iff_iff, contains_iff]
    simp [keys]
  rw [hlist, hmapping, hany, hcontains]

/-! ### One change more -/

theorem after_snoc (changes : List Change) (c : Change) :
    after (changes ++ [c]) = (after changes).apply c := by
  rw [after, List.foldl_append]
  rfl

theorem snoc_split {α : Type} {xs earlier later : List α} {c x : α}
    (h : xs ++ [c] = earlier ++ x :: later) : (later = [] ∧ xs = earlier ∧ c = x) ∨
      ∃ init, later = init ++ [c] ∧ xs = earlier ++ x :: init := by
  rcases List.eq_nil_or_concat later with rfl | ⟨init, d, rfl⟩
  · obtain ⟨hxs, hc⟩ := List.append_inj' h rfl
    exact .inl ⟨rfl, hxs, (List.cons.inj hc).1⟩
  · rw [List.concat_eq_append, ← List.cons_append, ← List.append_assoc] at h
    obtain ⟨hxs, hc⟩ := List.append_inj' h rfl
    exact .inr ⟨init, by rw [List.concat_eq_append, (List.cons.inj hc).1], hxs⟩

theorem current_snoc : Current (changes ++ [c]) key e ↔
    (c = .set e.1 e.2 ∧ key.sameKey e.1 = true) ∨
      Current changes key e ∧ ¬ c.Sets key ∧ ¬ c.Removes key := by
  constructor
  · rintro ⟨earlier, later, hsplit, hkey, hlater⟩
    rcases snoc_split hsplit with ⟨rfl, rfl, rfl⟩ | ⟨init, rfl, rfl⟩
    · exact .inl ⟨rfl, hkey⟩
    · obtain ⟨hinit, hc⟩ := List.forall_mem_append.mp hlater
      exact .inr ⟨⟨earlier, init, rfl, hkey, hinit⟩, hc c List.mem_cons_self⟩
  · rintro (⟨rfl, hkey⟩ | ⟨⟨earlier, later, rfl, hkey, hlater⟩, hc⟩)
    · exact ⟨changes, [], rfl, hkey, List.forall_mem_nil _⟩
    · refine ⟨earlier, later ++ [c], by simp, hkey, List.forall_mem_append.mpr ⟨hlater, ?_⟩⟩
      exact List.forall_mem_singleton.mpr hc

theorem heldSince_snoc : HeldSince (changes ++ [c]) key n ↔
    (changes.length = n ∧ c.Sets key ∧ ∀ e, ¬ Current changes key e) ∨
      HeldSince changes key n ∧ ¬ c.Removes key := by
  constructor
  · rintro ⟨earlier, d, later, hsplit, hn, hsets, habsent, hlater⟩
    rcases snoc_split hsplit with ⟨rfl, rfl, rfl⟩ | ⟨init, rfl, rfl⟩
    · exact .inl ⟨hn, hsets, habsent⟩
    · obtain ⟨hinit, hc⟩ := List.forall_mem_append.mp hlater
      exact .inr ⟨⟨earlier, d, init, rfl, hn, hsets, habsent, hinit⟩, hc c List.mem_cons_self⟩
  · rintro (⟨hn, hsets, habsent⟩ | ⟨⟨earlier, d, later, rfl, hn, hsets, habsent, hlater⟩, hc⟩)
    · exact ⟨changes, c, [], rfl, hn, hsets, habsent, List.forall_mem_nil _⟩
    · refine ⟨earlier, d, later ++ [c], by simp, hn, hsets, habsent, ?_⟩
      exact List.forall_mem_append.mpr ⟨hlater, List.forall_mem_singleton.mpr hc⟩

theorem not_current_nil : ¬ Current [] key e := by
  rintro ⟨earlier, later, hsplit, -⟩
  simp at hsplit

theorem HeldSince.lt (h : HeldSince changes key n) : n < changes.length := by
  obtain ⟨earlier, d, later, rfl, rfl, -⟩ := h
  simp

/-- What is held is there. -/
theorem HeldSince.current (h : HeldSince changes key n) : ∃ e, Current changes key e := by
  induction changes using List.reverseRecOn with
  | nil => exact absurd h.lt (Nat.not_lt_zero n)
  | append_singleton changes c ih =>
    by_cases hsets : c.Sets key
    · cases c with
      | set k v => exact ⟨(k, v), current_snoc.mpr (.inl ⟨rfl, hsets⟩)⟩
      | _ => exact hsets.elim
    · rcases heldSince_snoc.mp h with ⟨-, hsets', -⟩ | ⟨hheld, hremoves⟩
      · exact absurd hsets' hsets
      · obtain ⟨e, he⟩ := ih hheld
        exact ⟨e, current_snoc.mpr (.inr ⟨he, hsets, hremoves⟩)⟩

theorem sets_congr (h : key.sameKey k = true) : c.Sets key ↔ c.Sets k := by
  cases c with
  | set k' v => rw [Change.Sets, Change.Sets, Value.sameKey_congr h]
  | _ => exact Iff.rfl

theorem removes_congr (h : key.sameKey k = true) : c.Removes key ↔ c.Removes k := by
  cases c with
  | erase k' => rw [Change.Removes, Change.Removes, Value.sameKey_congr h]
  | _ => exact Iff.rfl

theorem current_congr (h : key.sameKey k = true) : Current changes key e ↔ Current changes k e := by
  unfold Current
  simp only [Value.sameKey_congr h, sets_congr h, removes_congr h]

theorem heldSince_congr (h : key.sameKey k = true) :
    HeldSince changes key n ↔ HeldSince changes k n := by
  unfold HeldSince
  simp only [current_congr h, sets_congr h, removes_congr h]

/-! ### The step of each change -/

theorem mem_keys (he : e ∈ m.entries) : e.1 ∈ m.keys := List.mem_map_of_mem he

theorem find_self (hd : m.Distinct) (he : e ∈ m.entries) (hk : e.1.sameKey e.1 = true) :
    m.find? e.1 = some e := find_of_mem hd he hk

theorem find_erase (hd : m.Distinct) (key k : Value) :
    (m.erase key).find? k = if k.sameKey key then none else m.find? k := by
  obtain ⟨es⟩ := m
  induction es with
  | nil => simp [erase, find?]
  | cons f rest ih =>
    obtain ⟨hf, hrest⟩ := List.pairwise_cons.mp hd
    specialize ih hrest
    unfold erase find? at ih ⊢
    dsimp only at ih ⊢
    cases hkf : key.sameKey f.1 with
    | true =>
      simp only [List.eraseP_cons, hkf, cond_true]
      split_ifs with hk
      · rw [List.find?_eq_none]
        intro e he hke
        have hsame := Value.sameKey_trans (Value.sameKey_symm (Value.sameKey_trans hk hkf)) hke
        rw [hf e he] at hsame
        cases hsame
      · have hne : k.sameKey f.1 = false := by
          rw [Value.sameKey_comm, ← Value.sameKey_congr hkf, Value.sameKey_comm]
          simpa using hk
        rw [List.find?_cons, hne]
    | false =>
      simp only [List.eraseP_cons, hkf, cond_false, List.find?_cons, ih]
      cases hk : k.sameKey f.1 with
      | false => rfl
      | true =>
        have hne : k.sameKey key = false := by
          rw [Value.sameKey_congr hk, Value.sameKey_comm, hkf]
        simp [hne]

/-- Setting a key that is there changes the entry in its place. -/
theorem set_present (hd : m.Distinct) (hi : m.keys[i]? = some k) (hk : key.sameKey k = true)
    (v : Value) : (m.set key v).entries = m.entries.set i (key, v) := by
  have hthere : m.contains key = true := by
    obtain ⟨e, he, rfl⟩ := List.mem_map.mp (List.mem_of_getElem? hi)
    exact contains_iff.mpr ⟨e, he, hk⟩
  rw [set, if_pos hthere]
  clear hthere
  obtain ⟨es⟩ := m
  dsimp only
  induction es generalizing i with
  | nil => simp [keys] at hi
  | cons f rest ih =>
    obtain ⟨hf, hrest⟩ := List.pairwise_cons.mp hd
    cases i with
    | zero =>
      have hfk : f.1 = k := by simpa [keys] using hi
      rw [replaceIn, if_pos (hfk ▸ hk), List.set_cons_zero]
    | succ i =>
      have hi' : (keys ⟨rest⟩)[i]? = some k := by simpa [keys] using hi
      obtain ⟨e, he, rfl⟩ := List.mem_map.mp (List.mem_of_getElem? hi')
      have hne : ¬ key.sameKey f.1 = true := by
        rw [Value.sameKey_congr hk, Value.sameKey_comm, hf e he]
        exact Bool.false_ne_true
      rw [replaceIn, if_neg hne, List.set_cons_succ, ih hrest hi']

theorem Reflects.absent (h : Reflects changes m) (hk : m.contains key = false) :
    ∀ e, ¬ Current changes key e := by
  intro e he
  rw [contains, (h.find key e).mpr he] at hk
  cases hk

theorem Reflects.present (h : Reflects changes m) (hk : m.contains key = true) :
    ∃ e, Current changes key e := by
  obtain ⟨e, he⟩ := Option.isSome_iff_exists.mp hk
  exact ⟨e, (h.find key e).mp he⟩

theorem pairwise_set {α : Type} {R : α → α → Prop} {xs : List α} {x y : α}
    (h : xs.Pairwise R) (hi : xs[i]? = some x) (hleft : ∀ z, R x z → R y z)
    (hright : ∀ z, R z x → R z y) : (xs.set i y).Pairwise R := by
  induction xs generalizing i with
  | nil => exact h
  | cons a xs ih =>
    obtain ⟨ha, hxs⟩ := List.pairwise_cons.mp h
    cases i with
    | zero =>
      obtain rfl : a = x := by simpa using hi
      exact List.pairwise_cons.mpr ⟨fun z hz => hleft z (ha z hz), hxs⟩
    | succ i =>
      have hi' : xs[i]? = some x := by simpa using hi
      refine List.pairwise_cons.mpr ⟨fun z hz => ?_, ih hxs hi'⟩
      rcases List.mem_or_eq_of_mem_set hz with hz | rfl
      · exact ha z hz
      · exact hright a (ha x (List.mem_of_getElem? hi'))

theorem keys_set_present (hd : m.Distinct) (hi : m.keys[i]? = some k) (hk : key.sameKey k = true) :
    (m.set key v).keys = m.keys.set i key := by
  rw [keys, set_present hd hi hk, List.map_set]
  rfl

theorem keys_set_absent (hk : m.contains key = false) : (m.set key v).keys = m.keys ++ [key] := by
  rw [set, hk]
  simp [keys]

/-- A key that is there has been held for as long as before. -/
theorem heldSince_set_present (hk : ∃ e, Current changes key e) :
    HeldSince (changes ++ [.set key v]) k n ↔ HeldSince changes k n := by
  refine heldSince_snoc.trans ⟨?_, fun h => .inr ⟨h, id⟩⟩
  rintro (⟨-, hsets, habsent⟩ | ⟨hheld, -⟩)
  · obtain ⟨e, he⟩ := hk
    exact absurd ((current_congr hsets).mpr he) (habsent e)
  · exact hheld

theorem Reflects.order_set (h : Reflects changes m) (v : Value) :
    (m.set key v).keys.Pairwise fun a b =>
      ∀ i j, HeldSince (changes ++ [.set key v]) a i → HeldSince (changes ++ [.set key v]) b j →
        i < j := by
  cases hthere : m.contains key with
  | true =>
    simp only [heldSince_set_present (h.present hthere)]
    obtain ⟨e, he, hsame⟩ := contains_iff.mp hthere
    obtain ⟨i, hi⟩ := List.mem_iff_getElem?.mp (mem_keys he)
    rw [keys_set_present h.distinct hi hsame]
    refine pairwise_set h.order hi (fun z hz => ?_) fun z hz => ?_
    · simpa only [heldSince_congr hsame] using hz
    · simpa only [heldSince_congr hsame] using hz
  | false =>
    have habsent := h.absent hthere
    -- What was held before has been held for as long, and the new key since this change.
    have hold {a : Value} {n : Nat} (ha : a ∈ m.keys)
        (hheld : HeldSince (changes ++ [.set key v]) a n) : HeldSince changes a n := by
      rcases heldSince_snoc.mp hheld with ⟨-, hsets, -⟩ | ⟨hheld, -⟩
      · obtain ⟨e, he, rfl⟩ := List.mem_map.mp ha
        have hmem := contains_iff.mpr ⟨e, he, Value.sameKey_symm hsets⟩
        rw [hthere] at hmem
        cases hmem
      · exact hheld
    have hnew {n : Nat} (hheld : HeldSince (changes ++ [.set key v]) key n) :
        changes.length = n := by
      rcases heldSince_snoc.mp hheld with ⟨hn, -⟩ | ⟨hheld, -⟩
      · exact hn
      · obtain ⟨e, he⟩ := hheld.current
        exact absurd he (habsent e)
    rw [keys_set_absent hthere, List.pairwise_append]
    refine ⟨?_, List.pairwise_singleton _ _, fun a ha b hb i j hi hj => ?_⟩
    · exact h.order.imp_of_mem fun ha hb hab i j hi hj => hab i j (hold ha hi) (hold hb hj)
    · obtain rfl := List.mem_singleton.mp hb
      exact (hold ha hi).lt.trans_eq (hnew hj)

theorem Reflects.set (h : Reflects changes m) (hk : key.IsKey) (v : Value) :
    Reflects (changes ++ [.set key v]) (m.set key v) := by
  refine ⟨List.forall_mem_map.mpr fun e he => ?_, h.distinct.set key v, fun k e => ?_,
    h.order_set v⟩
  · rcases mem_set he with rfl | he
    · exact hk
    · exact h.keys _ (mem_keys he)
  rw [find_set, current_snoc]
  have hsets : Change.Sets k (.set key v) ↔ k.sameKey key = true := Iff.rfl
  cases hsame : k.sameKey key with
  | true =>
    rw [if_pos rfl]
    constructor
    · rintro ⟨⟩
      exact .inl ⟨rfl, hsame⟩
    · rintro (⟨heq, -⟩ | ⟨-, hnot, -⟩)
      · cases heq
        rfl
      · exact absurd hsame (mt hsets.mpr hnot)
  | false =>
    rw [if_neg Bool.false_ne_true, h.find]
    constructor
    · intro he
      exact .inr ⟨he, by simp [hsets, hsame], id⟩
    · rintro (⟨heq, hkey⟩ | ⟨he, -⟩)
      · cases heq
        rw [hsame] at hkey
        cases hkey
      · exact he

theorem Reflects.erase (h : Reflects changes m) (key : Value) :
    Reflects (changes ++ [.erase key]) (m.erase key) := by
  have hsub : (m.erase key).entries.Sublist m.entries := List.eraseP_sublist
  refine ⟨List.forall_mem_map.mpr fun e he => h.keys _ (mem_keys (hsub.subset he)),
    h.distinct.sublist hsub, fun k e => ?_, ?_⟩
  · rw [find_erase h.distinct, current_snoc]
    have hremoves : Change.Removes k (.erase key) ↔ k.sameKey key = true := Iff.rfl
    split_ifs with hsame
    · simp [hremoves, hsame]
    · simp [hremoves, hsame, h.find, Change.Sets]
  · refine (h.order.sublist (hsub.map _)).imp fun hab i j hi hj => ?_
    have hbefore {a : Value} {n : Nat} (ha : HeldSince (changes ++ [.erase key]) a n) :
        HeldSince changes a n := by
      rcases heldSince_snoc.mp ha with ⟨-, hsets, -⟩ | ⟨hheld, -⟩
      · exact hsets.elim
      · exact hheld
    exact hab i j (hbefore hi) (hbefore hj)

theorem Reflects.clear : Reflects (changes ++ [.clear]) empty := by
  refine ⟨List.forall_mem_nil _, empty_distinct, fun k e => ?_, List.Pairwise.nil⟩
  simp [current_snoc, find?, empty, Change.Removes]

/-- Whatever is done, the Mapping holds what is left of it. -/
theorem after_reflects (hkeys : ∀ c ∈ changes, ∀ key ∈ c.key?, key.IsKey) :
    Reflects changes (after changes) := by
  induction changes using List.reverseRecOn with
  | nil =>
    refine ⟨List.forall_mem_nil _, empty_distinct, fun k e => ?_, .nil⟩
    simp [find?, after, empty, not_current_nil]
  | append_singleton changes c ih =>
    obtain ⟨hbefore, hc⟩ := List.forall_mem_append.mp hkeys
    have h := ih hbefore
    rw [after_snoc]
    cases c with
    | set key v => exact h.set (hc _ List.mem_cons_self key rfl) v
    | erase key => exact h.erase key
    | clear => exact Reflects.clear

/-! ### Since when a key is held -/

theorem HeldSince.unique (hi : HeldSince changes key i) (hj : HeldSince changes key j) : i = j := by
  induction changes using List.reverseRecOn with
  | nil => exact absurd hi.lt (Nat.not_lt_zero i)
  | append_singleton changes c ih =>
    rcases heldSince_snoc.mp hi with ⟨rfl, -, habsent⟩ | ⟨hi, -⟩ <;>
      rcases heldSince_snoc.mp hj with ⟨rfl, -, habsent'⟩ | ⟨hj, -⟩
    · rfl
    · obtain ⟨e, he⟩ := hj.current
      exact absurd he (habsent e)
    · obtain ⟨e, he⟩ := hi.current
      exact absurd he (habsent' e)
    · exact ih hi hj

theorem Current.heldSince (h : Current changes key e) : ∃ n, HeldSince changes key n := by
  induction changes using List.reverseRecOn generalizing e with
  | nil => exact absurd h not_current_nil
  | append_singleton changes c ih =>
    rcases current_snoc.mp h with ⟨rfl, hkey⟩ | ⟨hbefore, -, hremoves⟩
    · by_cases hthere : ∃ e, Current changes key e
      · obtain ⟨e', he'⟩ := hthere
        obtain ⟨n, hn⟩ := ih he'
        exact ⟨n, heldSince_snoc.mpr (.inr ⟨hn, id⟩)⟩
      · exact ⟨_, heldSince_snoc.mpr (.inl ⟨rfl, hkey, not_exists.mp hthere⟩)⟩
    · obtain ⟨n, hn⟩ := ih hbefore
      exact ⟨n, heldSince_snoc.mpr (.inr ⟨hn, hremoves⟩)⟩

theorem Reflects.mem_iff (h : Reflects changes m) :
    e ∈ m.entries ↔ e.1.IsKey ∧ Current changes e.1 e := by
  constructor
  · intro he
    have hkey := h.keys _ (mem_keys he)
    exact ⟨hkey, (h.find _ _).mp (find_self h.distinct he (Value.sameKey_self hkey.hashable))⟩
  · rintro ⟨-, he⟩
    exact List.mem_of_find?_eq_some ((h.find _ _).mpr he)

theorem kind_of_sameKey {a b : Value} (h : a.sameKey b = true) : a.kind = b.kind := by
  cases a <;> cases b <;> first | rfl | cases h

/-- A Mapping is a finite map in the order of insertion. Of each key it holds the entry set last and
not taken away since, every key once, in the order since when they are held; an entry set again
stays in its place. Keys are the same exactly if they are equal values, which are of one kind, so
that a key is in the Mapping exactly if it is in the List of its keys. -/
theorem mapping_ordered (changes : List Change)
    (hkeys : ∀ c ∈ changes, ∀ key ∈ c.key?, key.IsKey) :
    (∀ key, (∀ v, (after changes).get? key = some v ↔ ∃ k, Current changes key (k, v)) ∧
      ((after changes).contains key = true ↔ ∃ e, Current changes key e)) ∧
    (∀ e, e ∈ (after changes).entries ↔ e.1.IsKey ∧ Current changes e.1 e) ∧
    (after changes).entries = (after changes).keys.zip (after changes).values ∧
    (after changes).size = (after changes).keys.length ∧
    ((after changes).keys.Pairwise fun a b => a.sameKey b = false) ∧
    (∀ key ∈ (after changes).keys, ∃! n, HeldSince changes key n) ∧
    ((after changes).keys.Pairwise fun a b =>
      ∀ i j, HeldSince changes a i → HeldSince changes b j → i < j) ∧
    (∀ i k key v, (after changes).keys[i]? = some k → key.sameKey k = true →
      ((after changes).set key v).entries = (after changes).entries.set i (key, v)) ∧
    ∀ h : Heap, (∀ a b, a.IsKey → b.isHashable = true →
        h.equal a b = a.sameKey b ∧ (a.sameKey b = true → a.kind = b.kind)) ∧
      ∀ i j key, key.isHashable = true → h.mapping i = after changes →
        (h.list j).toList = (after changes).keys →
        Operation.contains h (.mapping i) key = Operation.contains h (.list j) key := by
  have hm := after_reflects hkeys
  refine ⟨fun key => ⟨fun v => ?_, ?_⟩, fun e => hm.mem_iff, ?_, ?_, ?_, ?_, hm.order, ?_, ?_⟩
  · rw [get?, Option.map_eq_some_iff]
    constructor
    · rintro ⟨e, he, rfl⟩
      exact ⟨e.1, (hm.find key e).mp he⟩
    · rintro ⟨k, hk⟩
      exact ⟨(k, v), (hm.find key _).mpr hk, rfl⟩
  · rw [contains, Option.isSome_iff_exists]
    exact exists_congr fun e => hm.find key e
  · exact List.zip_of_prod rfl rfl
  · exact (List.length_map _).symm
  · exact List.pairwise_map.mpr hm.distinct
  · intro key hkey
    obtain ⟨e, he, rfl⟩ := List.mem_map.mp hkey
    obtain ⟨n, hn⟩ := (hm.mem_iff.mp he).2.heldSince
    exact ⟨n, hn, fun i hi => hi.unique hn⟩
  · exact fun i k key v hi hk => set_present hm.distinct hi hk v
  · intro h
    refine ⟨fun a b ha _ => ⟨equal_key h ha, kind_of_sameKey⟩, fun i j key hkey hi hj => ?_⟩
    exact contains_keys hm.keys hkey hi hj

/-- One key in both its forms, one set again, and one taken away and set again. -/
def told : List Change := [
  .set (.integer 1) (.string "a"), .set (.boolean true) .none, .set (.float 0) (.string "b"),
  .set (.float (-0)) (.string "c"), .set (.integer 1) (.string "d"), .erase (.boolean true),
  .set (.boolean true) .none]

theorem told_keys : ∀ c ∈ told, ∀ key ∈ c.key?, key.IsKey := by
  have hinteger (n : Int) : Value.IsKey (.integer n) := ⟨rfl, nofun, nofun⟩
  have hboolean (b : Bool) : Value.IsKey (.boolean b) := ⟨rfl, nofun, nofun⟩
  have hfloat {x : Float} (h : x.isNaN = false) : Value.IsKey (.float x) := by
    refine ⟨rfl, ?_, nofun⟩
    rintro _ ⟨⟩
    exact h
  simp only [told, List.forall_mem_cons, Change.key?, Option.mem_def, Option.some.injEq,
    forall_eq', hinteger, hboolean, true_and]
  exact ⟨hfloat (by decide), hfloat (by decide), List.forall_mem_nil _⟩

/-- What holds of it: the last entry of each key, the zeros being one, in the order of insertion. -/
theorem told_ordered :
    (∀ c ∈ told, ∀ key ∈ c.key?, key.IsKey) ∧
    (after told).get? (.integer 1) = some (.string "d") ∧
    (.float (-0), .string "c") ∈ (after told).entries ∧
    (∀ i j, HeldSince told (.integer 1) i → HeldSince told (.boolean true) j → i < j) := by
  obtain ⟨hget, hmem, -, -, -, -, horder, -⟩ := mapping_ordered told told_keys
  have hone : Current told (.integer 1) (.integer 1, .string "d") := by
    refine ⟨told.take 4, told.drop 5, rfl, rfl, ?_⟩
    exact List.forall_mem_cons.mpr ⟨⟨id, Bool.false_ne_true⟩,
      List.forall_mem_singleton.mpr ⟨Bool.false_ne_true, id⟩⟩
  have hzero : Current told (.float (-0)) (.float (-0), .string "c") := by
    refine ⟨told.take 3, told.drop 4, rfl, by decide, ?_⟩
    exact List.forall_mem_cons.mpr ⟨⟨Bool.false_ne_true, id⟩,
      List.forall_mem_cons.mpr ⟨⟨id, Bool.false_ne_true⟩,
        List.forall_mem_singleton.mpr ⟨Bool.false_ne_true, id⟩⟩⟩
  have hkeys : (after told).keys = [.integer 1, .float (-0), .boolean true] := rfl
  refine ⟨told_keys, ((hget _).1 _).mpr ⟨_, hone⟩,
    (hmem _).mpr ⟨told_keys _ (List.mem_of_getElem? (rfl : told[3]? = _)) _ rfl, hzero⟩, ?_⟩
  rw [hkeys] at horder
  exact (List.pairwise_cons.mp horder).1 _ (by simp)

end Mapping

end Offside
