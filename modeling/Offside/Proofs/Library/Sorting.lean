import Mathlib.Data.Prod.Lex
import Mathlib.Data.String.Basic
import Offside.Proofs.Heap.Mirror
import Offside.Proofs.Library.Editing
import Offside.Proofs.Sorting.Order

/-!
Sorting Lists. Items that are all Integers or all Strings are arranged in ascending order, equal
ones as they were, and so they would be by comparisons alone. Items of other kinds are refused
wherever two of them stand in a List: comparisons that order items of two kinds either way would put
them in both orders.
-/

namespace Offside

namespace Value

/-- The ascending order of Integers, and that of Strings by their code points. -/
def AtMost : Value → Value → Prop
  | .integer a, .integer b => a ≤ b
  | .string a, .string b => Text.codePoints a ≤ Text.codePoints b
  | _, _ => False

/-- The ascending arrangement of items, with items that tie as they were: it is made of the items at
certain places. -/
structure Arranged (items arranged : List Value) : Prop where
  perm : arranged.Perm items
  ascending : arranged.Pairwise AtMost
  stable : ∃ places : List Nat, places.Perm (List.range items.length) ∧
    arranged = places.map (fun i => items[i]?.getD .none) ∧
    places.Pairwise fun i j => (items[j]?.getD .none).AtMost (items[i]?.getD .none) → i < j

/-- All Integers, or all Strings. -/
def Comparable (vs : List Value) : Prop :=
  (∀ v ∈ vs, v.kind = .integer) ∨ ∀ v ∈ vs, v.kind = .string

/-- Kinds in any order, and in a kind the order of its values. -/
def sortKey (place : Kind → Nat) (v : Value) : Nat ×ₗ Int ×ₗ List Nat :=
  toLex (place v.kind, toLex (match v with
    | .integer n => (n, [])
    | .string s => (0, Text.codePoints s)
    | _ => (0, [])))

/-- The order by such keys. -/
def InOrder (place : Kind → Nat) (a b : Value) : Prop := sortKey place a ≤ sortKey place b

variable {place : Kind → Nat} {a b : Value} {vs : List Value}

theorem inOrder_integer (m n : Int) : InOrder place (.integer m) (.integer n) ↔ m ≤ n := by
  simp [InOrder, sortKey, Prod.Lex.toLex_le_toLex, kind, ← le_iff_lt_or_eq]

theorem inOrder_string (s t : String) :
    InOrder place (.string s) (.string t) ↔ Text.codePoints s ≤ Text.codePoints t := by
  simp [InOrder, sortKey, Prod.Lex.toLex_le_toLex, kind]

theorem InOrder.place_le (h : InOrder place a b) : place a.kind ≤ place b.kind := by
  rcases (Prod.Lex.toLex_le_toLex.mp h) with h | h
  · exact h.le
  · exact h.1.le

theorem Comparable.cases (h : Comparable vs) (ha : a ∈ vs) (hb : b ∈ vs) :
    (∃ m n, a = .integer m ∧ b = .integer n) ∨ ∃ s t, a = .string s ∧ b = .string t := by
  rcases h with h | h
  · have ha := h a ha
    have hb := h b hb
    cases a <;> cases ha
    cases b <;> cases hb
    exact .inl ⟨_, _, rfl, rfl⟩
  · have ha := h a ha
    have hb := h b hb
    cases a <;> cases ha
    cases b <;> cases hb
    exact .inr ⟨_, _, rfl, rfl⟩

theorem Comparable.atMost_iff (h : Comparable vs) (ha : a ∈ vs) (hb : b ∈ vs) :
    a.AtMost b ↔ InOrder place a b := by
  obtain ⟨m, n, rfl, rfl⟩ | ⟨s, t, rfl, rfl⟩ := h.cases ha hb
  · exact (inOrder_integer m n).symm
  · exact (inOrder_string s t).symm

theorem Comparable.eq_of_key (h : Comparable vs) (ha : a ∈ vs) (hb : b ∈ vs)
    (hab : InOrder place a b) (hba : InOrder place b a) : a = b := by
  obtain ⟨m, n, rfl, rfl⟩ | ⟨s, t, rfl, rfl⟩ := h.cases ha hb
  · rw [inOrder_integer] at hab hba
    rw [le_antisymm hab hba]
  · rw [inOrder_string] at hab hba
    rw [Text.codePoints_injective (le_antisymm hab hba)]

end Value

namespace Library

open Offside.Action Value
open scoped List

variable {builtin : String} {place : Kind → Nat} {a b : Value} {vs ys : List Value}

theorem inOrder_ranks (place : Kind → Nat) : Sorting.Ranks (InOrder place) :=
  ⟨le_trans, fun a b => le_total (sortKey place a) (sortKey place b)⟩

/-! ### Comparisons -/

theorem before_integer (m n : Int) :
    before builtin (.integer m) (.integer n) = .ok (decide (m < n)) := by
  have hless : (some (compare m n) == some Ordering.lt) = decide (m < n) := by
    rw [Bool.eq_iff_iff, beq_iff_eq, Option.some_inj, decide_eq_true_eq, compare_lt_iff_lt]
  rw [← hless]
  rfl

theorem before_string (s t : String) :
    before builtin (.string s) (.string t) = .ok (Text.before s t) := by
  have hless : (some (if Text.before s t then Ordering.lt else if Text.before t s then .gt else .eq) ==
      some Ordering.lt) = Text.before s t := by
    split_ifs <;> simp [*]
  rw [← hless]
  rfl

/-- Two values without Floats are two Integers or two Strings, or not to be ordered. -/
theorem before_cases (builtin : String) (ha : a.kind ≠ .float) (hb : b.kind ≠ .float) :
    (∃ m n, a = .integer m ∧ b = .integer n) ∨ (∃ s t, a = .string s ∧ b = .string t) ∨
      ∃ f, before builtin a b = .error (.failure f) := by
  cases a with
  | float | nan => exact absurd rfl ha
  | integer m =>
    cases b with
    | float | nan => exact absurd rfl hb
    | integer n => exact .inl ⟨m, n, rfl, rfl⟩
    | _ => exact .inr (.inr ⟨_, rfl⟩)
  | string s =>
    cases b with
    | float | nan => exact absurd rfl hb
    | string t => exact .inr (.inl ⟨s, t, rfl, rfl⟩)
    | _ => exact .inr (.inr ⟨_, rfl⟩)
  | _ => exact .inr (.inr ⟨_, rfl⟩)

theorem before_error {r : Refusal} (h : before builtin a b = .error r) : ∃ f, r = .failure f := by
  unfold before at h
  split at h
  · cases h
  · cases h
    exact ⟨_, rfl⟩

theorem tells_integer {F : Refusal → Prop} (m n : Int) :
    Sorting.Tells F (before builtin) (InOrder place) (.integer m) (.integer n) := by
  unfold Sorting.Tells
  rw [inOrder_integer, before_integer, not_le]
  exact decide_eq_true_iff

theorem tells_string {F : Refusal → Prop} (s t : String) :
    Sorting.Tells F (before builtin) (InOrder place) (.string s) (.string t) := by
  unfold Sorting.Tells
  rw [inOrder_string, before_string, not_le]
  exact decide_eq_true_iff

/-! ### Items of one kind -/

theorem sort_comparable (h : Comparable vs) :
    ∃ ys, Sorting.sort (before builtin) vs = .ok ys ∧
      ys.Pairwise (InOrder place) ∧ ys ~ vs := by
  have htells : vs.Pairwise (Sorting.Tells (fun _ => False) (before builtin)
      (InOrder place)) := by
    refine List.pairwise_of_forall_mem_list fun a ha b hb => ?_
    obtain ⟨m, n, rfl, rfl⟩ | ⟨s, t, rfl, rfl⟩ := h.cases ha hb
    · exact tells_integer m n
    · exact tells_string s t
  have hsort := Sorting.sort_ordered (inOrder_ranks place) htells
  cases hr : Sorting.sort (before builtin) vs with
  | ok ys =>
    rw [hr] at hsort
    exact ⟨ys, rfl, hsort⟩
  | error e =>
    rw [hr] at hsort
    exact hsort.elim

/-- There is one ascending arrangement by keys. -/
theorem arrangement_unique {xs ys : List Value} (h : Comparable vs) (hx : xs ~ vs) (hy : ys ~ vs)
    (hxs : xs.Pairwise (InOrder place)) (hys : ys.Pairwise (InOrder place)) : xs = ys :=
  List.Perm.eq_of_pairwise
    (fun _ _ ha hb => h.eq_of_key (hx.subset ha) (hy.subset hb)) hxs hys (hx.trans hy.symm)

theorem mergeSort_comparable (h : Comparable vs) :
    (vs.mergeSort precedes).Pairwise (InOrder place) := by
  have hcongr : vs.mergeSort precedes =
      vs.mergeSort fun a b => decide (sortKey place a ≤ sortKey place b) := by
    have hsame : ∀ a ∈ vs, ∀ b ∈ vs,
        precedes a b = decide (sortKey place a ≤ sortKey place b) := by
      intro a ha b hb
      obtain ⟨m, n, rfl, rfl⟩ | ⟨s, t, rfl, rfl⟩ := h.cases ha hb
      · exact decide_eq_decide.mpr (inOrder_integer m n).symm
      · rw [precedes, Text.before, ← decide_not]
        exact decide_eq_decide.mpr (not_lt.trans (inOrder_string s t).symm)
    simpa using List.map_mergeSort (f := id) hsame
  rw [hcongr]
  have hsorted : (vs.mergeSort fun a b => decide (sortKey place a ≤ sortKey place b)).Pairwise
      fun a b => decide (sortKey place a ≤ sortKey place b) = true := List.pairwise_mergeSort
    (fun a b c hab hbc => by simpa using (of_decide_eq_true hab).trans (of_decide_eq_true hbc))
    (fun a b => by simpa using le_total (sortKey place a) (sortKey place b)) vs
  exact hsorted.imp of_decide_eq_true

theorem areOrdered_iff : areOrdered vs = true ↔ Comparable vs := by
  simp [areOrdered, Comparable]

/-- What can be ordered is arranged as comparisons alone would arrange it. -/
theorem arrange_compares (builtin : String) (vs : List Value) :
    arrange builtin vs = Sorting.sort (before builtin) vs := by
  unfold arrange
  split
  · next h =>
    have hc := areOrdered_iff.mp h
    obtain ⟨ys, hys, hsorted, hperm⟩ : ∃ ys, Sorting.sort (before builtin) vs = .ok ys ∧
        ys.Pairwise (InOrder fun _ => 0) ∧ ys ~ vs := sort_comparable hc
    rw [hys, arrangement_unique hc (List.mergeSort_perm vs precedes) hperm
      (mergeSort_comparable hc) hsorted]
  · rfl

/-- Places in the order of the items there, and where items tie in their own order. -/
theorem places_exist (items : List Value) (place : Kind → Nat) :
    ∃ places : List Nat, places ~ List.range items.length ∧
      places.Pairwise fun i j => InOrder place (items[i]?.getD .none) (items[j]?.getD .none) ∧
        (InOrder place (items[j]?.getD .none) (items[i]?.getD .none) → i < j) := by
  let key (i : Nat) := toLex (sortKey place (items[i]?.getD .none), i)
  refine ⟨(List.range items.length).mergeSort fun i j => decide (key i ≤ key j),
    List.mergeSort_perm _ _, ?_⟩
  have hsorted : ((List.range items.length).mergeSort fun i j => decide (key i ≤ key j)).Pairwise
      fun i j => decide (key i ≤ key j) = true := List.pairwise_mergeSort
    (fun a b c hab hbc => by simpa using (of_decide_eq_true hab).trans (of_decide_eq_true hbc))
    (fun a b => by simpa using le_total (key a) (key b)) (List.range items.length)
  have hnodup := (List.mergeSort_perm (List.range items.length)
    fun i j => decide (key i ≤ key j)).nodup_iff.mpr List.nodup_range
  refine hsorted.imp₂ (fun i j hij hne => ?_) hnodup
  rcases Prod.Lex.toLex_le_toLex.mp (of_decide_eq_true hij) with hlt | ⟨heq, hle⟩
  · exact ⟨hlt.le, fun hji => absurd hji (not_le.mpr hlt)⟩
  · exact ⟨heq.le, fun _ => lt_of_le_of_ne hle hne⟩

theorem mergeSort_arranged (h : Comparable vs) : Arranged vs (vs.mergeSort precedes) := by
  have hsorted : (vs.mergeSort precedes).Pairwise (InOrder fun _ => 0) := mergeSort_comparable h
  have hperm := List.mergeSort_perm vs precedes
  obtain ⟨places, hplaces, hpairs⟩ := places_exist vs fun _ => 0
  have hitem {i : Nat} (hi : i ∈ places) : vs[i]?.getD .none ∈ vs := by
    have hlt := List.mem_range.mp (hplaces.subset hi)
    rw [List.getElem?_eq_getElem hlt]
    exact List.getElem_mem hlt
  have hmap : (places.map fun i => vs[i]?.getD .none) ~ vs := by
    refine (hplaces.map _).trans (.of_eq ?_)
    refine List.ext_getElem (by simp) fun i _ hi => ?_
    simp [List.getElem?_eq_getElem hi]
  have heq := arrangement_unique h hperm hmap hsorted
    (List.pairwise_map.mpr (hpairs.imp And.left))
  refine ⟨hperm, ?_, places, hplaces, heq, ?_⟩
  · exact hsorted.imp_of_mem fun ha hb hab =>
      (h.atMost_iff (hperm.subset ha) (hperm.subset hb)).mpr hab
  · exact hpairs.imp_of_mem fun hi hj hij hji =>
      hij.2 ((h.atMost_iff (hitem hj) (hitem hi)).mp hji)

theorem arrange_comparable (builtin : String) (h : Comparable vs) :
    arrange builtin vs = .ok (vs.mergeSort precedes) := if_pos (areOrdered_iff.mpr h)

/-! ### Items of several kinds -/

/-- Items that are sorted at all are of one kind, since kinds may have any order. -/
theorem sort_one_kind (hfloat : ∀ v ∈ vs, v.kind ≠ .float)
    (h : Sorting.sort (before builtin) vs = .ok ys) : ∀ a ∈ vs, ∀ b ∈ vs, a.kind = b.kind := by
  have hsorted (place : Kind → Nat) : ys.Pairwise (InOrder place) ∧ ys ~ vs := by
    have htells : vs.Pairwise (Sorting.Tells (fun _ => True) (before builtin)
        (InOrder place)) := by
      refine List.pairwise_of_forall_mem_list fun a ha b hb => ?_
      obtain ⟨m, n, rfl, rfl⟩ | ⟨s, t, rfl, rfl⟩ | ⟨f, hf⟩ :=
        before_cases builtin (hfloat b hb) (hfloat a ha)
      · exact tells_integer n m
      · exact tells_string t s
      · unfold Sorting.Tells
        rw [hf]
        trivial
    have hsort := Sorting.sort_ordered (inOrder_ranks place) htells
    rw [h] at hsort
    exact hsort
  have hsame : ys.Pairwise fun a b => a.kind = b.kind := by
    refine List.pairwise_iff_getElem.mpr fun i j hi hj hij => ?_
    have hle := (List.pairwise_iff_getElem.mp
      (hsorted fun k => if k = ys[j].kind then 0 else 1).1 i j hi hj hij).place_le
    by_contra hne
    rw [if_neg hne, if_pos rfl] at hle
    exact absurd hle (by decide)
  have : Std.Symm fun a b : Value => a.kind = b.kind := ⟨fun _ _ hab => hab.symm⟩
  have hall := List.Pairwise.forall_of_forall (R := fun a b : Value => a.kind = b.kind)
    (fun _ _ => rfl) hsame
  have hperm := (hsorted fun _ => 0).2
  exact fun a ha b hb => hall (hperm.symm.subset ha) (hperm.symm.subset hb)

theorem sort_of_two (hfloat : ∀ v ∈ vs, v.kind ≠ .float) (htwo : 2 ≤ vs.length)
    (h : Sorting.sort (before builtin) vs = .ok ys) : Comparable vs := by
  have hkind := sort_one_kind hfloat h
  rcases vs with _ | ⟨x, _ | ⟨y, rest⟩⟩
  · cases htwo
  · simp at htwo
  · have hx : x ∈ x :: y :: rest := List.mem_cons_self
    have hy : y ∈ x :: y :: rest := List.mem_cons_of_mem x List.mem_cons_self
    obtain ⟨m, n, rfl, rfl⟩ | ⟨s, t, rfl, rfl⟩ | ⟨f, hf⟩ :=
      before_cases builtin (hfloat y hy) (hfloat x hx)
    · exact .inl fun v hv => hkind v hv _ hx
    · exact .inr fun v hv => hkind v hv _ hx
    · rw [Sorting.sort_refused hf rest] at h
      cases h

/-- Without Floats, two items or more are refused unless any two of them can be ordered. -/
theorem arrange_refused (builtin : String) (hfloat : ∀ v ∈ vs, v.kind ≠ .float) :
    (∃ f items, arrange builtin vs = .error ⟨.failure f, items⟩) ↔
      2 ≤ vs.length ∧ ¬ Comparable vs := by
  rw [arrange_compares]
  constructor
  · rintro ⟨f, items, hf⟩
    refine ⟨?_, fun hc => ?_⟩
    · by_contra hfew
      rw [Sorting.sort_short (by omega)] at hf
      cases hf
    · rw [← arrange_compares, arrange_comparable builtin hc] at hf
      cases hf
  · rintro ⟨htwo, hc⟩
    have hsort : Sorting.Permutes (before builtin) vs (· ~ vs) (Sorting.sort (before builtin) vs) :=
      Sorting.sort_perm vs
    cases hr : Sorting.sort (before builtin) vs with
    | ok ys => exact absurd (sort_of_two hfloat htwo hr) hc
    | error stop =>
      rw [hr] at hsort
      obtain ⟨cause, items⟩ := stop
      obtain ⟨⟨a, b, hab⟩, -⟩ := hsort
      obtain ⟨f, rfl⟩ := before_error hab
      exact ⟨f, items, rfl⟩

/-! ### Calls -/

variable {w : World} {i : Nat}

theorem invoke_sorted (w : World) (i : Nat) :
    invoke "sorted" [.list i] w = match arrange "sorted" (w.heap.list i).toList with
      | .ok arranged => newList arranged w
      | .error stop => .error stop.cause w := by
  have hb : (⟨"sorted", some 1, none, sorted⟩ : Builtin) ∈ builtins := by
    simp only [builtins, core, List.mem_append, List.mem_cons, true_or, or_true]
  rw [invoke_builtin hb]
  change (match arrange "sorted" (w.heap.list i).toList with
    | .ok arranged => _
    | .error stop => _ : Action Value) w = _
  cases arrange "sorted" (w.heap.list i).toList <;> rfl

theorem invoke_sort (w : World) (i : Nat) :
    invoke "list.sort" [.list i] w = ListMethod.sort [.list i] w := by
  have hb : (⟨"list.sort", some 1, none, ListMethod.sort⟩ : Builtin) ∈ builtins := by
    simp only [builtins, methods, listMethods, List.mem_append, List.mem_cons, true_or, or_true]
  exact congrFun (invoke_builtin hb [.list i]) w

/-- A call that goes as an arrangement does fails when that does. -/
theorem fails_iff_stopped {r : Except (Sorting.Stopped Value Refusal) (List Value)}
    {x : EStateM.Result Refusal World Value} (hok : ∀ ys, r = .ok ys → ∃ v w', x = .ok v w')
    (herror : ∀ stop, r = .error stop → ∃ w', x = .error stop.cause w') :
    (∃ f w', x = .error (.failure f) w') ↔ ∃ f items, r = .error ⟨.failure f, items⟩ := by
  cases r with
  | ok ys =>
    obtain ⟨v, w', rfl⟩ := hok ys rfl
    constructor
    · rintro ⟨f, w'', h⟩
      cases h
    · rintro ⟨f, items, h⟩
      cases h
  | error stop =>
    obtain ⟨cause, items⟩ := stop
    obtain ⟨w', rfl⟩ := herror _ rfl
    constructor
    · rintro ⟨f, w'', h⟩
      cases h
      exact ⟨f, items, rfl⟩
    · rintro ⟨f, items', h⟩
      cases h
      exact ⟨f, w', rfl⟩

theorem sorted_fails_iff : (∃ f w', invoke "sorted" [.list i] w = .error (.failure f) w') ↔
    ∃ f items, arrange "sorted" (w.heap.list i).toList = .error ⟨.failure f, items⟩ := by
  rw [invoke_sorted]
  refine fails_iff_stopped (fun ys h => ?_) fun stop h => ?_
  · rw [h]
    exact ⟨_, _, rfl⟩
  · rw [h]
    exact ⟨_, rfl⟩

theorem sort_fails_iff : (∃ f w', invoke "list.sort" [.list i] w = .error (.failure f) w') ↔
    ∃ f items, arrange "sort" (w.heap.list i).toList = .error ⟨.failure f, items⟩ := by
  rw [invoke_sort, ListMethod.sort_eq]
  refine fails_iff_stopped (fun ys h => ?_) fun stop h => ?_
  · rw [h]
    exact ⟨_, _, rfl⟩
  · rw [h]
    exact ⟨_, rfl⟩

/-- A sort that is refused leaves the List with its items, in some order. -/
theorem refused_sort_permutes (hi : i < w.heap.lists.size) {r : Refusal} {w' : World}
    (h : invoke "list.sort" [.list i] w = .error r w') :
    (w'.heap.list i).toList ~ (w.heap.list i).toList := by
  have hsort : Sorting.Permutes (before "sort") (w.heap.list i).toList
      (· ~ (w.heap.list i).toList) (arrange "sort" (w.heap.list i).toList) := by
    rw [arrange_compares]
    exact Sorting.sort_perm _
  rw [invoke_sort, ListMethod.sort_eq] at h
  cases hr : arrange "sort" (w.heap.list i).toList with
  | ok arranged =>
    rw [hr] at h
    cases h
  | error stop =>
    rw [hr] at h hsort
    cases h
    rw [Heap.list_modifyList hi]
    exact hsort.2

-- The third item has found its place when the String is refused.
example : (arrange "sort" [.integer 1, .integer 3, .integer 2, .string "a"]).mapError (·.items) =
    .error [.integer 1, .integer 2, .integer 3, .string "a"] := rfl

/-- Items that are all Integers or all Strings are sorted into a new List, or in their place; other
items, if there are two and no Float among them, are refused. All this is as comparisons of two
items alone would have it. -/
theorem lists_sorted (w : World) (i : Nat) (hi : i < w.heap.lists.size) :
    (Comparable (w.heap.list i).toList → ∃ ys, Arranged (w.heap.list i).toList ys ∧
      (∃ j h, invoke "sorted" [.list i] w = .ok (.list j) { w with heap := h } ∧
        w.heap.Extends h ∧ w.heap.lists.size ≤ j ∧ (h.list j).toList = ys) ∧
      ∃ h, invoke "list.sort" [.list i] w = .ok .none { w with heap := h } ∧
        w.heap.Spares (.list i) h ∧ (h.list i).toList = ys) ∧
    ((∀ v ∈ (w.heap.list i).toList, v.kind ≠ .float) → ∀ name ∈ ["sorted", "list.sort"],
      ((∃ f w', invoke name [.list i] w = .error (.failure f) w') ↔
        2 ≤ (w.heap.list i).toList.length ∧ ¬ Comparable (w.heap.list i).toList)) ∧
    ∀ builtin, arrange builtin (w.heap.list i).toList =
      Sorting.sort (before builtin) (w.heap.list i).toList := by
  refine ⟨?_, ?_, fun builtin => arrange_compares builtin _⟩
  · intro hc
    refine ⟨_, mergeSort_arranged hc, ?_, ?_⟩
    · obtain ⟨he, -, -, hitems⟩ :=
        Heap.newList_spec w.heap ((w.heap.list i).toList.mergeSort precedes).toArray
      refine ⟨_, _, ?_, he, le_rfl, congrArg Array.toList hitems⟩
      rw [invoke_sorted, arrange_comparable "sorted" hc]
      rfl
    · refine ⟨w.heap.modifyList i fun _ => ((w.heap.list i).toList.mergeSort precedes).toArray, ?_,
        Heap.modifyList_spares _ _ _, ?_⟩
      · rw [invoke_sort, ListMethod.sort_eq, arrange_comparable "sort" hc]
      · rw [Heap.list_modifyList hi]
  · intro hfloat name hname
    rcases List.mem_pair.mp hname with rfl | rfl
    · exact sorted_fails_iff.trans (arrange_refused "sorted" hfloat)
    · exact sort_fails_iff.trans (arrange_refused "sort" hfloat)

/-- Two Strings out of order, and a String between two Integers. -/
def unsorted : World :=
  { (default : World) with
    heap := {
      lists := #[#[.string "b", .string "a"], #[.integer 2, .string "a", .integer 1]]
      mappings := #[] } }

theorem unsorted_sorted :
    (∃ h, invoke "list.sort" [.list 0] unsorted = .ok .none { unsorted with heap := h } ∧
      (h.list 0).toList.Pairwise AtMost) ∧
    (∃ f w', invoke "sorted" [.list 1] unsorted = .error (.failure f) w') := by
  have hstrings : Comparable (unsorted.heap.list 0).toList := .inr (by decide)
  have hfloat : ∀ v ∈ (unsorted.heap.list 1).toList, v.kind ≠ .float := by decide
  have hmixed : ¬ Comparable (unsorted.heap.list 1).toList := by
    rintro (h | h)
    · exact absurd (h (.string "a") (.tail _ (.head _))) (by decide)
    · exact absurd (h (.integer 2) (.head _)) (by decide)
  constructor
  · obtain ⟨ys, harranged, -, h, hcall, -, hitems⟩ := (lists_sorted unsorted 0 (by decide)).1 hstrings
    exact ⟨h, hcall, hitems ▸ harranged.ascending⟩
  · exact ((lists_sorted unsorted 1 (by decide)).2.1 hfloat "sorted" (by decide)).mpr
      ⟨by decide, hmixed⟩

end Library

end Offside
