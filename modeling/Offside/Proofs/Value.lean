import Mathlib.Tactic
import Offside.Proofs.Operation
import Offside.Scope

/-!
Values of the language. A program that no host meddles with has no datum from outside, no method
away from a receiver of its sort, and no function of the library under a name of a method; nor do
its Lists, Mappings and scopes hold anything else. Operators and accesses to items keep it so, and
there is one condition only that they have no error for: a remainder of an infinite Float.
-/

namespace Offside

namespace Value

/-- The methods of this sort of value have names that begin like this one. -/
def Serves (name : String) : Value → Prop
  | string _ => "str.".toList <+: name.toList
  | list _ => "list.".toList <+: name.toList
  | mapping _ => "map.".toList <+: name.toList
  | _ => False

def Proper : Value → Prop
  | native name => '.' ∉ name.toList
  | bound name receiver => receiver.Serves name
  | foreign _ => False
  | _ => True

variable {name : String} {v : Value}

theorem proper_of_serves (h : v.Serves name) : v.Proper := by
  cases v <;> first | exact h | trivial

theorem proper_ofDocument (x : Float) : (ofDocument x).Proper := by
  unfold ofDocument
  split <;> trivial

theorem proper_ofJson {datum : Json} (h : ∀ d, ofJson datum ≠ foreign d) :
    (ofJson datum).Proper := by
  cases datum with
  | float x => exact proper_ofDocument x
  | integer | boolean | string => trivial
  | _ => exact absurd rfl (h _)

theorem proper_unnamed (h : v.Proper) : v.unnamed.Proper := by
  cases v with
  | nan => trivial
  | _ => exact h

theorem proper_of_hashable (h : v.isHashable = true) : v.Proper := by
  cases v <;> trivial

/-- The sorts of receivers are told apart by the first letter of a name. -/
theorem serves_head {c : Char} {cs : List Char} (hname : name.toList = c :: cs)
    (h : v.Serves name) :
    (∃ s, v = string s) ∧ c = 's' ∨ (∃ id, v = list id) ∧ c = 'l' ∨
      (∃ id, v = mapping id) ∧ c = 'm' := by
  cases v with
  | string s =>
    rw [Serves, hname] at h
    exact .inl ⟨⟨s, rfl⟩, (List.cons_prefix_cons.mp h).1.symm⟩
  | list id =>
    rw [Serves, hname] at h
    exact .inr (.inl ⟨⟨id, rfl⟩, (List.cons_prefix_cons.mp h).1.symm⟩)
  | mapping id =>
    rw [Serves, hname] at h
    exact .inr (.inr ⟨⟨id, rfl⟩, (List.cons_prefix_cons.mp h).1.symm⟩)
  | _ => exact h.elim

theorem text_of_serves {cs : List Char} (hname : name.toList = 's' :: cs) (h : v.Serves name) :
    ∃ s, v = string s := by
  rcases serves_head hname h with ⟨h, -⟩ | ⟨-, h⟩ | ⟨-, h⟩
  · exact h
  · cases h
  · cases h

theorem list_of_serves {cs : List Char} (hname : name.toList = 'l' :: cs) (h : v.Serves name) :
    ∃ id, v = list id := by
  rcases serves_head hname h with ⟨-, h⟩ | ⟨h, -⟩ | ⟨-, h⟩
  · cases h
  · exact h
  · cases h

theorem mapping_of_serves {cs : List Char} (hname : name.toList = 'm' :: cs) (h : v.Serves name) :
    ∃ id, v = mapping id := by
  rcases serves_head hname h with ⟨-, h⟩ | ⟨-, h⟩ | ⟨h, -⟩
  · cases h
  · cases h
  · exact h

end Value

/-! ### Containers -/

namespace Mapping

def Proper (m : Mapping) : Prop := ∀ e ∈ m.entries, e.1.Proper ∧ e.2.Proper

variable {m : Mapping} {key v : Value}

theorem empty_proper : empty.Proper := List.forall_mem_nil _

theorem replaceIn_proper (hk : key.Proper) (hv : v.Proper) {es : List (Value × Value)}
    (h : ∀ e ∈ es, e.1.Proper ∧ e.2.Proper) :
    ∀ e ∈ replaceIn key v es, e.1.Proper ∧ e.2.Proper := by
  induction es with
  | nil => exact List.forall_mem_nil _
  | cons e es ih =>
    obtain ⟨he, hes⟩ := List.forall_mem_cons.mp h
    rw [replaceIn]
    split
    · exact List.forall_mem_cons.mpr ⟨⟨hk, hv⟩, hes⟩
    · exact List.forall_mem_cons.mpr ⟨he, ih hes⟩

theorem Proper.set (h : m.Proper) (hk : key.Proper) (hv : v.Proper) : (m.set key v).Proper := by
  unfold Mapping.set
  split
  · exact replaceIn_proper hk hv h
  · exact List.forall_mem_append.mpr ⟨h, List.forall_mem_singleton.mpr ⟨hk, hv⟩⟩

theorem Proper.setAll (h : m.Proper) {es : List (Value × Value)}
    (hes : ∀ e ∈ es, e.1.Proper ∧ e.2.Proper) : (m.setAll es).Proper := by
  induction es generalizing m with
  | nil => exact h
  | cons e es ih =>
    obtain ⟨he, hes⟩ := List.forall_mem_cons.mp hes
    exact ih (h.set he.1 he.2) hes

theorem ofEntries_proper {es : List (Value × Value)} (h : ∀ e ∈ es, e.1.Proper ∧ e.2.Proper) :
    (ofEntries es).Proper :=
  empty_proper.setAll h

theorem Proper.erase (h : m.Proper) (key : Value) : (m.erase key).Proper :=
  fun e he => h e (List.mem_of_mem_eraseP he)

theorem Proper.get (h : m.Proper) (hv : m.get? key = some v) : v.Proper := by
  obtain ⟨e, he, rfl⟩ := Option.map_eq_some_iff.mp hv
  exact (h e (List.mem_of_find?_eq_some he)).2

theorem Proper.keys (h : m.Proper) : ∀ v ∈ m.keys, v.Proper :=
  List.forall_mem_map.mpr fun e he => (h e he).1

theorem Proper.values (h : m.Proper) : ∀ v ∈ m.values, v.Proper :=
  List.forall_mem_map.mpr fun e he => (h e he).2

end Mapping

theorem mem_modify {α : Type} {xs : Array α} {i : Nat} {f : α → α} {y : α} (h : y ∈ xs.modify i f) :
    y ∈ xs ∨ ∃ x ∈ xs, y = f x := by
  obtain ⟨j, hj, rfl⟩ := Array.mem_iff_getElem.mp h
  rw [Array.size_modify] at hj
  rw [Array.getElem_modify]
  split
  · exact .inr ⟨_, Array.getElem_mem hj, rfl⟩
  · exact .inl (Array.getElem_mem hj)

namespace Heap

structure Proper (h : Heap) : Prop where
  lists : ∀ xs ∈ h.lists, ∀ v ∈ xs, v.Proper
  mappings : ∀ m ∈ h.mappings, m.Proper

variable {h : Heap}

theorem empty_proper : empty.Proper :=
  ⟨fun _ hm => absurd hm (Array.not_mem_empty _), fun _ hm => absurd hm (Array.not_mem_empty _)⟩

theorem Proper.list (hh : h.Proper) (id : Nat) : ∀ v ∈ h.list id, v.Proper := by
  unfold Heap.list
  cases hx : h.lists[id]? with
  | none => exact fun v hv => absurd hv (Array.not_mem_empty v)
  | some xs => exact hh.lists xs (Array.mem_of_getElem? hx)

theorem Proper.items (hh : h.Proper) (id : Nat) : ∀ v ∈ (h.list id).toList, v.Proper :=
  fun v hv => hh.list id v (Array.mem_def.mpr hv)

theorem Proper.mapping (hh : h.Proper) (id : Nat) : (h.mapping id).Proper := by
  unfold Heap.mapping
  cases hx : h.mappings[id]? with
  | none => exact Mapping.empty_proper
  | some m => exact hh.mappings m (Array.mem_of_getElem? hx)

theorem Proper.newList (hh : h.Proper) {xs : Array Value} (hx : ∀ v ∈ xs, v.Proper) :
    (h.newList xs).1.Proper ∧ (h.newList xs).2.Proper := by
  refine ⟨trivial, ?_, hh.mappings⟩
  intro ys hy
  rcases Array.mem_push.mp hy with hy | rfl
  · exact hh.lists ys hy
  · exact hx

theorem Proper.newMapping (hh : h.Proper) {m : Mapping} (hm : m.Proper) :
    (h.newMapping m).1.Proper ∧ (h.newMapping m).2.Proper := by
  refine ⟨trivial, hh.lists, ?_⟩
  intro k hk
  rcases Array.mem_push.mp hk with hk | rfl
  · exact hh.mappings k hk
  · exact hm

theorem Proper.newResult (hh : h.Proper) {v : Value} (hv : v.Proper) :
    (h.newResult v).1.Proper ∧ (h.newResult v).2.Proper := by
  unfold Heap.newResult
  split
  · split_ifs
    · exact ⟨trivial, hh.lists, hh.mappings⟩
    · exact ⟨trivial, hh⟩
  · exact ⟨hv, hh⟩

theorem Proper.modifyList (hh : h.Proper) (id : Nat) {f : Array Value → Array Value}
    (hf : ∀ xs : Array Value, (∀ v ∈ xs, v.Proper) → ∀ v ∈ f xs, v.Proper) :
    (h.modifyList id f).Proper := by
  refine ⟨fun ys hy => ?_, hh.mappings⟩
  rcases mem_modify hy with hy | ⟨xs, hx, rfl⟩
  · exact hh.lists ys hy
  · exact hf xs (hh.lists xs hx)

theorem Proper.eraseItem (hh : h.Proper) (id i : Nat) :
    (h.modifyList id (·.eraseIdxIfInBounds i)).Proper := by
  refine hh.modifyList id fun xs hx v hv => hx v ?_
  rw [Array.mem_def, Array.toList_eraseIdxIfInBounds] at hv
  exact Array.mem_def.mpr (List.mem_of_mem_eraseIdx hv)

theorem Proper.modifyMapping (hh : h.Proper) (id : Nat) {f : Mapping → Mapping}
    (hf : ∀ m : Mapping, m.Proper → (f m).Proper) : (h.modifyMapping id f).Proper := by
  refine ⟨hh.lists, fun k hk => ?_⟩
  rcases mem_modify hk with hk | ⟨m, hm, rfl⟩
  · exact hh.mappings k hk
  · exact hf m (hh.mappings m hm)

end Heap

/-! ### Scopes -/

def Scope.Proper (s : Scope) : Prop := ∀ b ∈ s.bindings, b.2.Proper

namespace Scope

variable {s : Scope} {name : Json} {v : Value}

theorem Proper.get (h : s.Proper) (hv : s.get? name = some v) : v.Proper := by
  obtain ⟨b, hb, rfl⟩ := Option.map_eq_some_iff.mp hv
  exact h b (List.mem_of_find?_eq_some hb)

theorem values_replaceIn (hv : v.Proper) {bs : List (Json × Value)} (h : ∀ b ∈ bs, b.2.Proper) :
    ∀ b ∈ replaceIn name v bs, b.2.Proper := by
  induction bs with
  | nil => exact List.forall_mem_nil _
  | cons b bs ih =>
    obtain ⟨hb, hbs⟩ := List.forall_mem_cons.mp h
    rw [replaceIn]
    split
    · exact List.forall_mem_cons.mpr ⟨hv, hbs⟩
    · exact List.forall_mem_cons.mpr ⟨hb, ih hbs⟩

theorem Proper.define (h : s.Proper) (name : Json) (hv : v.Proper) : (s.define name v).Proper := by
  unfold Scope.define
  split
  · exact values_replaceIn hv h
  · exact List.forall_mem_append.mpr ⟨h, List.forall_mem_singleton.mpr hv⟩

end Scope

def Scopes.Proper (scopes : Scopes) : Prop := ∀ s ∈ scopes.table, s.Proper

namespace Scopes

variable {scopes : Scopes} {name : Json} {v : Value}

theorem root_proper : root.Proper := by
  intro s hs
  obtain rfl := Array.mem_singleton.mp hs
  exact List.forall_mem_nil _

theorem Proper.scope (h : scopes.Proper) (s : Nat) : (scopes.scope s).Proper := by
  unfold Scopes.scope
  cases hs : scopes.table[s]? with
  | none => exact List.forall_mem_nil _
  | some t => exact h t (Array.mem_of_getElem? hs)

theorem Proper.get (h : scopes.Proper) {s : Nat} (hv : scopes.get? s name = some v) :
    v.Proper := by
  obtain ⟨owner, -, hv⟩ := Option.bind_eq_some_iff.mp hv
  exact (h.scope owner).get hv

theorem Proper.define (h : scopes.Proper) (s : Nat) (name : Json) (hv : v.Proper) :
    (scopes.define s name v).Proper := by
  intro t ht
  have ht : t ∈ scopes.table.modify s (·.define name v) := ht
  rcases mem_modify ht with ht | ⟨u, hu, rfl⟩
  · exact h t ht
  · exact (h u hu).define name hv

theorem Proper.child (h : scopes.Proper) (s : Nat) : (scopes.child s).2.Proper := by
  intro t ht
  rcases Array.mem_push.mp ht with ht | rfl
  · exact h t ht
  · exact List.forall_mem_nil _

end Scopes

/-! ### Remainders -/

namespace Number

/-- What is read as a zero is equal to zero. -/
theorem zero_of_decode {y : Float} {negative : Bool} {q : Int}
    (h : decode y = .finite negative 0 q) : (y == 0) = true := by
  have hmagnitude : y.toBits.toNat % 2 ^ 63 = 0 := by
    unfold decode at h
    dsimp only at h
    split_ifs at h
    · have := (Double.finite.inj h).2.1
      omega
    · have := (Double.finite.inj h).2.1
      omega
  have hbits : y.toBits = 0 ∨ y.toBits = 0x8000000000000000 := by
    have := y.toBits.toNat_lt
    obtain h | h : y.toBits.toNat = 0 ∨ y.toBits.toNat = 2 ^ 63 := by omega
    · exact .inl (UInt64.toNat_inj.mp h)
    · exact .inr (UInt64.toNat_inj.mp h)
  obtain ⟨⟨bits, valid⟩⟩ := y
  obtain rfl | rfl := hbits
  · exact (by decide +kernel : (Float.ofBits 0 == 0) = true)
  · exact (by decide +kernel : (Float.ofBits 0x8000000000000000 == 0) = true)

/-- There is no remainder just where the dividend is infinite; a divisor that is a NaN gives one. -/
theorem remainder?_eq_none {x y : Float} (hy : (y == 0) = false) :
    remainder? x y = none ↔
      (∃ negative, decode x = .infinite negative) ∧ decode y ≠ .nan := by
  unfold remainder?
  split
  · next hx => simp [hx]
  · next hy' _ => simp [hy']
  · next hx hy' => exact ⟨fun _ => ⟨⟨_, hx⟩, hy'⟩, fun _ => rfl⟩
  · next hx _ => simp [hx]
  · next hx hy' =>
    rw [if_neg]
    · simp only [hx]
      split <;> simp
    · rintro rfl
      simp [zero_of_decode hy'] at hy

end Number

/-! ### Operations -/

namespace Operation

variable {α β : Type} {P : α → Prop} {Q : β → Prop} {F : Fault → Prop} {r : Result α}

/-- A result satisfies `P`, and a condition without an error of its own is one of `F`. -/
def Delivers (F : Fault → Prop) (P : α → Prop) : Result α → Prop
  | .ok a => P a
  | .error (.cause _) => True
  | .error (.fault f) => F f

/-- Every failure is an error. -/
def Never (_ : Fault) : Prop := False

theorem delivers_bind {r : Result β} {f : β → Result α} (h : Delivers F Q r)
    (hf : ∀ b, Q b → Delivers F P (f b)) : Delivers F P (r >>= f) := by
  rcases r with (c | e) | b
  · trivial
  · exact h
  · exact hf b h

theorem delivers_ite {p : Prop} [Decidable p] {r' : Result α} (h : p → Delivers F P r)
    (k : ¬ p → Delivers F P r') : Delivers F P (if p then r else r') := by
  split
  · next hp => exact h hp
  · next hp => exact k hp

theorem delivers_imp {F' : Fault → Prop} (h : Delivers F P r) (hF : ∀ f, F f → F' f) :
    Delivers F' P r := by
  rcases r with (c | e) | b
  · trivial
  · exact hF e h
  · exact h

theorem boolean_delivers (test : Test) (v : Value) :
    Delivers Never (fun _ => True) (boolean test v) := by
  cases v <;> trivial

theorem widen_delivers (op : String) (n : Int) : Delivers F (fun _ => True) (widen op n) := by
  unfold widen
  split <;> trivial

theorem numeric_delivers {op : String} {exact' : Int → Int → Result Value}
    {rounded : Float → Float → Result Value} (he : ∀ m n, Delivers F Value.Proper (exact' m n))
    (hr : ∀ x y, Delivers F Value.Proper (rounded x y)) (a b : Value) :
    Delivers F Value.Proper (numeric op exact' rounded a b) := by
  unfold numeric
  split
  · exact he _ _
  · exact hr _ _
  · exact delivers_bind (widen_delivers _ _) fun _ _ => hr _ _
  · exact delivers_bind (widen_delivers _ _) fun _ _ => hr _ _
  · trivial

/-- An operator that is total on Integers and on Floats. -/
theorem total_delivers (op : String) (f : Int → Int → Int) (g : Float → Float → Float)
    (a b : Value) : Delivers F Value.Proper
      (numeric op (fun m n => .ok (.integer (f m n))) (fun x y => .ok (.float (g x y))) a b) := by
  apply numeric_delivers
  · exact fun _ _ => trivial
  · exact fun _ _ => trivial

theorem add_delivers (a b : Value) : Delivers F Value.Proper (add a b) := by
  unfold add
  split
  · trivial
  · exact total_delivers "+" (· + ·) (· + ·) _ _

theorem divide_delivers (a b : Value) : Delivers F Value.Proper (divide a b) := by
  unfold divide
  refine delivers_ite (fun _ => trivial) fun _ => ?_
  apply numeric_delivers
  · intro m n
    split <;> trivial
  · exact fun _ _ => trivial

theorem unnamed_eq_float {v : Value} {x : Float} (h : v.unnamed = .float x) :
    v = .float x ∨ (∃ object, v = .nan object) ∧ x = Number.notANumber := by
  cases v with
  | float => exact .inl h
  | nan object =>
    cases h
    exact .inr ⟨⟨object, rfl⟩, rfl⟩
  | _ => cases h

/-- The one operator that can meet a condition without an error of its own. -/
theorem modulo_faults_iff {a b : Value} {f : Fault} :
    modulo a b = .error (.fault f) ↔ f = .noRemainder ∧ ∃ x y, a = .float x ∧ b = .float y ∧
      (∃ negative, Number.decode x = .infinite negative) ∧ Number.decode y ≠ .nan ∧
      (y == 0) = false := by
  constructor
  · intro h
    unfold modulo at h
    split at h
    · split at h <;> cases h
    · next x y ha hb =>
      split at h
      · cases h
      · next hzero =>
        have hzero := Bool.eq_false_of_not_eq_true hzero
        split at h
        · cases h
        · next hr =>
          cases h
          obtain ⟨hx, hy⟩ := (Number.remainder?_eq_none hzero).mp hr
          have hnan : Number.decode Number.notANumber = .nan := by decide
          obtain rfl : a = .float x := (unnamed_eq_float ha).resolve_right fun hn => by
            obtain ⟨negative, hx⟩ := hx
            rw [hn.2, hnan] at hx
            cases hx
          obtain rfl : b = .float y :=
            (unnamed_eq_float hb).resolve_right fun hn => hy (by rw [hn.2, hnan])
          exact ⟨rfl, x, y, rfl, rfl, hx, hy, hzero⟩
    · cases h
  · rintro ⟨rfl, x, y, rfl, rfl, hx, hy, hzero⟩
    have hr := (Number.remainder?_eq_none hzero).mpr ⟨hx, hy⟩
    simp [modulo, Value.unnamed, hzero, hr]

theorem modulo_delivers (a b : Value) :
    Delivers (fun f => f = .noRemainder) Value.Proper (modulo a b) := by
  unfold modulo
  split
  · exact delivers_ite (fun _ => trivial) fun _ => trivial
  · refine delivers_ite (fun _ => trivial) fun _ => ?_
    split
    · trivial
    · rfl
  · trivial

theorem ordered_delivers (op : String) (a b : Value) :
    Delivers F (fun _ => True) (ordered op a b) := by
  have horder : Delivers F (fun _ => True) (order? op a b) := by
    unfold order?
    split <;> trivial
  exact delivers_bind horder fun _ _ => trivial

theorem checkKey_delivers (key : Value) :
    Delivers F (fun _ => key.isHashable = true) (checkKey key) :=
  delivers_ite (fun h => h) fun _ => trivial

theorem contains_delivers (h : Heap) (container item : Value) :
    Delivers F (fun _ => True) (contains h container item) := by
  unfold contains
  split
  · trivial
  · exact delivers_bind (checkKey_delivers item) fun _ _ => trivial
  · split <;> trivial
  · trivial

/-- Of all operators only the remainder can fail without an error of its own. -/
theorem binary_delivers (h : Heap) (op : String) (a b : Value) :
    Delivers (fun f => op = "%" ∧ f = .noRemainder) Value.Proper (binary h op a b) := by
  unfold binary
  split
  · exact add_delivers a b
  · exact total_delivers "-" (· - ·) (· - ·) a b
  · exact total_delivers "*" (· * ·) (· * ·) a b
  · exact divide_delivers a b
  · exact delivers_imp (modulo_delivers a b) fun f hf => ⟨rfl, hf⟩
  · trivial
  · trivial
  · exact delivers_bind (ordered_delivers _ a b) fun _ _ => trivial
  · exact delivers_bind (ordered_delivers _ a b) fun _ _ => trivial
  · exact delivers_bind (ordered_delivers _ a b) fun _ _ => trivial
  · exact delivers_bind (ordered_delivers _ a b) fun _ _ => trivial
  · exact delivers_bind (contains_delivers h b a) fun _ _ => trivial
  · exact delivers_bind (contains_delivers h b a) fun _ _ => trivial
  · trivial

theorem unary_delivers (op : String) (v : Value) :
    Delivers Never Value.Proper (unary op v) := by
  unfold unary
  split
  · split <;> trivial
  · exact delivers_bind (boolean_delivers _ v) fun _ _ => trivial
  · trivial

theorem position_delivers (sequence : String) (length : Nat) (index : Value) :
    Delivers F (fun _ => True) (position sequence length index) := by
  unfold position
  split
  · exact delivers_ite (fun _ => trivial) fun _ => trivial
  · trivial

variable {h : Heap} {target index v : Value}

theorem getD_proper {o : Option Value} (ho : ∀ v ∈ o, v.Proper) : (o.getD .none).Proper := by
  cases o with
  | none => trivial
  | some v => exact ho v rfl

theorem getItem_delivers (hh : h.Proper) (target index : Value) :
    Delivers Never Value.Proper (getItem h target index) := by
  unfold getItem
  split
  · next id =>
    refine delivers_bind (position_delivers _ _ _) fun p _ => ?_
    exact getD_proper fun v hv => hh.list id v (Array.mem_of_getElem? hv)
  · refine delivers_bind (position_delivers _ _ _) fun p _ => ?_
    change Delivers Never Value.Proper (.ok _)
    split <;> trivial
  · next id =>
    refine delivers_bind (checkKey_delivers index) fun _ _ => ?_
    split
    · next v hv => exact (hh.mapping id).get hv
    · trivial
  · trivial

/-- A change of a heap that leaves none but values of the language in it. -/
def Edit.Proper (f : Edit) : Prop := ∀ h : Heap, h.Proper → (f h).Proper

theorem itemSetting_delivers (hv : v.Proper) (h : Heap) (target index : Value) :
    Delivers Never Edit.Proper (itemSetting h target index v) := by
  unfold itemSetting
  split
  · next id =>
    refine delivers_bind (position_delivers _ _ _) fun p _ h hh => hh.modifyList id fun xs hx => ?_
    intro w hw
    rcases Array.mem_or_eq_of_mem_setIfInBounds hw with hw | rfl
    · exact hx w hw
    · exact hv
  · next id =>
    refine delivers_bind (checkKey_delivers index) fun _ hk h hh => ?_
    exact hh.modifyMapping id fun m hm => hm.set (Value.proper_of_hashable hk) hv
  · trivial

theorem itemDeletion_delivers (h : Heap) (target index : Value) :
    Delivers Never Edit.Proper (itemDeletion h target index) := by
  unfold itemDeletion
  split
  · next id =>
    exact delivers_bind (position_delivers _ _ _) fun p _ h hh => hh.eraseItem id p
  · next id =>
    refine delivers_bind (checkKey_delivers index) fun _ _ => delivers_ite (fun _ => ?_) fun _ => ?_
    · exact fun h hh => hh.modifyMapping id fun m hm => hm.erase index
    · trivial
  · trivial

theorem iterationItems_delivers (hh : h.Proper) (v : Value) :
    Delivers Never (fun vs => ∀ v ∈ vs, v.Proper) (iterationItems h v) := by
  unfold iterationItems
  split
  · exact hh.items _
  · exact (hh.mapping _).keys
  · exact List.forall_mem_map.mpr fun _ _ => trivial
  · trivial

end Operation

end Offside
