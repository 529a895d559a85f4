import Offside.Proofs.Library.Confinement
import Offside.Proofs.Reporting

/-!
The builtins of the library among values of the language. Given such values, and a method its
receiver first, every builtin off the disk has such a value for a result, and nothing that it meets
is left without an error of the language.
-/

namespace Offside

/-- A number of arguments that the builtin can be called with. -/
def Builtin.Takes (b : Builtin) (n : Nat) : Prop :=
  ∀ range, b.arity? = some range → range.has n = true

namespace Builtin

variable {b : Builtin} {n : Nat}

theorem takes_any (h : b.arity? = none) : b.Takes n := by
  intro range hrange
  rw [h] at hrange
  cases hrange

theorem takes_of_has {range : ArityRange} (h : b.arity? = some range) (hhas : range.has n = true) :
    b.Takes n := by
  intro range' hrange
  rw [h] at hrange
  cases hrange
  exact hhas

theorem Takes.between (h : b.Takes n) {least : Int} (hleast : b.least = some least) :
    least ≤ n ∧ n ≤ b.most.getD least := by
  have hhas := h ⟨least, b.most.getD least⟩ (by rw [arity?, hleast, Option.map_some])
  simpa [ArityRange.has] using hhas

theorem Takes.least (h : b.Takes n) (k : Nat) (hk : b.least = some (k : Int)) : k ≤ n :=
  Int.ofNat_le.mp (h.between hk).1

theorem Takes.most (h : b.Takes n) {least : Int} (hleast : b.least = some least) (k : Nat)
    (hk : b.most = some (k : Int)) : n ≤ k := by
  have hmost := (h.between hleast).2
  rw [hk] at hmost
  exact Int.ofNat_le.mp hmost

theorem Takes.exactly (h : b.Takes n) (k : Nat) (hk : b.least = some (k : Int))
    (hmost : b.most = none) : n = k := by
  have hbetween := h.between hk
  rw [hmost] at hbetween
  exact Int.ofNat_inj.mp (le_antisymm hbetween.2 hbetween.1)

/-- The number of arguments of a method after its receiver. -/
theorem Takes.after (h : b.Takes (n + 1)) (k : Nat) (hk : b.least = some ((k + 1 : Nat) : Int))
    (hmost : b.most = none) : n = k :=
  Nat.succ.inj (h.exactly (k + 1) hk hmost)

end Builtin

namespace Library

open Offside.Action

/-- Arguments in a program that no host meddles with: a method has its receiver first. -/
structure Fitting (name : String) (args : List Value) : Prop where
  values : ∀ v ∈ args, v.Proper
  receiver : '.' ∈ name.toList → ∃ v rest, args = v :: rest ∧ v.Serves name

/-- The function of a builtin reports what it refuses, if it is entered with a number of arguments
that the builtin takes. With another number it may look for an argument that is not there. -/
def IsReporting (b : Builtin) : Prop :=
  ∀ args, Fitting b.name args → b.Takes args.length → Reports Value.Proper (b.run args)

theorem call_reports {b : Builtin} (h : IsReporting b) {args : List Value}
    (hargs : Fitting b.name args) : Reports Value.Proper (b.call args) := by
  unfold Builtin.call
  split
  · next harity => exact h args hargs (Builtin.takes_any harity)
  · next range harity =>
    split
    · next hhas => exact h args hargs (Builtin.takes_of_has harity hhas)
    · exact reports_fail _

variable {α : Type} {P : α → Prop} {v : Value} {rest args : List Value}

/-- A single argument. -/
theorem one_argument (h : args.length = 1) : ∃ v, args = [v] := List.length_eq_one_iff.mp h

theorem two_arguments (h : args.length = 2) : ∃ u v, args = [u, v] := List.length_eq_two.mp h

theorem three_arguments (h : args.length = 3) : ∃ u v w, args = [u, v, w] :=
  List.length_eq_three.mp h

theorem reports_none : Reports Value.Proper (pure .none : Action Value) := reports_pure trivial

/-- A check that an action begins with. -/
theorem reports_check {p : Prop} [Decidable p] {x : Action Unit} {f : Unit → Action α}
    (hx : Reports (fun _ => True) x) (hf : Reports P (f ())) :
    Reports P (if p then x >>= f else f ()) :=
  reports_ite (reports_bind hx fun _ _ => hf) hf

/-! ### Core functions -/

theorem print_reports (args : List Value) : Reports Value.Proper (print args) := by
  refine reports_bind heap_reports fun h _ => ?_
  refine reports_bind (reports_modify ?_) fun _ _ => reports_none
  exact fun _ => rfl

theorem length_reports (hn : args.length = 1) : Reports Value.Proper (length args) := by
  obtain ⟨v, rfl⟩ := one_argument hn
  unfold length
  split
  · exact reports_pure trivial
  · exact reports_bind heap_reports fun _ _ => reports_pure trivial
  · exact reports_bind heap_reports fun _ _ => reports_pure trivial
  · exact reports_fail _
  · next hnone => exact (hnone v rfl).elim

theorem input_reports (args : List Value) : Reports Value.Proper (input args) := by
  unfold input
  extract_lets answer
  have hanswer (prompt : String) : Reports Value.Proper (answer prompt) := by
    have hline : Reports (fun _ => True) (modifyGet fun w => w.readLine : Action _) := by
      refine reports_modifyGet fun w hw => ⟨trivial, ?_⟩
      rw [readLine_heap]
      exact hw
    refine reports_bind (reports_modify ?_) fun _ _ => ?_
    · exact fun _ => rfl
    · exact reports_bind hline fun _ _ => reports_pure trivial
  cases args with
  | nil => exact reports_given (hanswer _)
  | cons v _ => exact reports_bind (string_reports _ _ v) fun _ _ => hanswer _

theorem toText_reports (hn : args.length = 1) : Reports Value.Proper (toText args) := by
  obtain ⟨v, rfl⟩ := one_argument hn
  exact reports_bind heap_reports fun _ _ => reports_pure trivial

theorem toInteger_reports (hn : args.length = 1) : Reports Value.Proper (toInteger args) := by
  obtain ⟨v, rfl⟩ := one_argument hn
  unfold toInteger
  split
  · exact reports_pure trivial
  · exact reports_pure trivial
  · split
    · exact reports_pure trivial
    · exact reports_fail _
  · exact reports_fail _
  · split
    · exact reports_pure trivial
    · exact reports_fail _
  · exact reports_fail _
  · next hnone => exact (hnone v rfl).elim

theorem toFloatValue_reports (hn : args.length = 1) : Reports Value.Proper (toFloatValue args) := by
  obtain ⟨v, rfl⟩ := one_argument hn
  unfold toFloatValue
  split
  · exact reports_pure trivial
  · split
    · exact reports_pure trivial
    · exact reports_fail _
  · exact reports_pure trivial
  · exact reports_pure trivial
  · split
    · exact reports_pure trivial
    · exact reports_fail _
  · exact reports_fail _
  · next hnone => exact (hnone v rfl).elim

theorem toBoolean_reports (hn : args.length = 1) : Reports Value.Proper (toBoolean args) := by
  obtain ⟨v, rfl⟩ := one_argument hn
  exact reports_bind heap_reports fun _ _ => reports_pure trivial

theorem typeName_reports (hn : args.length = 1) : Reports Value.Proper (typeName args) := by
  obtain ⟨v, rfl⟩ := one_argument hn
  exact reports_pure trivial

theorem progression_reports (start stop step : Int) :
    Reports Value.Proper (progression start stop step) := by
  unfold progression
  refine reports_check (reports_fail _) ?_
  refine reports_bind (checkIndex_reports _) fun _ _ => ?_
  refine reports_check (reports_fault (.inr rfl)) ?_
  exact newList_reports (List.forall_mem_map.mpr fun _ _ => trivial)

theorem range_reports (hleast : 1 ≤ args.length) (hmost : args.length ≤ 3) :
    Reports Value.Proper (range args) := by
  refine reports_bind (reports_each fun v _ => integer_reports _ _ v) fun bounds hn => ?_
  match bounds with
  | [] =>
    rw [← hn] at hleast
    cases hleast
  | [_] => exact progression_reports _ _ _
  | [_, _] => exact progression_reports _ _ _
  | [_, _, _] => exact progression_reports _ _ _
  | _ :: _ :: _ :: _ :: _ =>
    simp only [List.length_cons] at hn
    omega

theorem toList_reports (args : List Value) : Reports Value.Proper (toList args) := by
  unfold toList
  split
  · exact newList_reports (List.forall_mem_nil _)
  · exact reports_bind (items_reports _) fun _ h => newList_reports h
  · exact newList_reports (List.forall_mem_map.mpr fun _ _ => trivial)
  · exact reports_bind (mapping_reports _) fun _ h => newList_reports h.keys
  · exact reports_fail _

/-- A change of a List, with no result. -/
theorem change_reports {f : Array Value → Array Value}
    (hf : ∀ xs : Array Value, (∀ v ∈ xs, v.Proper) → ∀ v ∈ f xs, v.Proper) (id : Nat) :
    Reports Value.Proper (do
      modifyHeap (·.modifyList id f)
      return .none) :=
  reports_bind (modifyHeap_reports fun _ hh => hh.modifyList id hf) fun _ _ => reports_none

theorem push_proper (hv : v.Proper) (xs : Array Value) (hx : ∀ w ∈ xs, w.Proper) :
    ∀ w ∈ xs.push v, w.Proper := by
  intro w hw
  rcases Array.mem_push.mp hw with hw | rfl
  · exact hx w hw
  · exact hv

theorem append_reports (hn : args.length = 2) (h : ∀ v ∈ args, v.Proper) :
    Reports Value.Proper (append args) := by
  obtain ⟨target, v, rfl⟩ := two_arguments hn
  refine reports_bind (list_reports _ _ target) fun id _ => ?_
  exact change_reports (push_proper (h v (by simp))) id

theorem keys_reports (hn : args.length = 1) : Reports Value.Proper (keys args) := by
  obtain ⟨v, rfl⟩ := one_argument hn
  refine reports_bind (map_reports _ _ _) fun id _ => ?_
  exact reports_bind (mapping_reports id) fun _ h => newList_reports h.keys

theorem values_reports (hn : args.length = 1) : Reports Value.Proper (values args) := by
  obtain ⟨v, rfl⟩ := one_argument hn
  refine reports_bind (map_reports _ _ _) fun id _ => ?_
  exact reports_bind (mapping_reports id) fun _ h => newList_reports h.values

theorem absolute_reports (hn : args.length = 1) : Reports Value.Proper (absolute args) := by
  obtain ⟨v, rfl⟩ := one_argument hn
  unfold absolute
  split
  · exact reports_pure trivial
  · exact reports_pure trivial
  · exact reports_pure trivial
  · exact wrongKind_reports _ _ _ _
  · next hnone => exact (hnone v rfl).elim

theorem liftRefusal_reports {r : Except Refusal α} (hok : ∀ a, r = .ok a → P a)
    (herror : ∀ e, r = .error e → e.Reported) : Reports P (liftRefusal r) := by
  cases r with
  | ok a => exact reports_pure (hok a rfl)
  | error e => exact reports_throw (herror e rfl)

/-- What cannot be ordered is a failure. -/
theorem before_refuses {builtin : String} {a b : Value} {e : Refusal}
    (h : before builtin a b = .error e) : e.Reported := by
  unfold before at h
  split at h
  · cases h
  · cases h
    trivial

theorem before_reports (builtin : String) (a b : Value) :
    Reports (fun _ => True) (liftRefusal (before builtin a b)) :=
  liftRefusal_reports (fun _ _ => trivial) fun _ => before_refuses

theorem candidates_reports (builtin : String) (h : ∀ v ∈ args, v.Proper) :
    Reports (fun r => r.1.Proper ∧ ∀ v ∈ r.2, v.Proper) (candidates builtin args) := by
  unfold candidates
  extract_lets first
  have hfirst (found : List Value) (h : ∀ v ∈ found, v.Proper) :
      Reports (fun r => r.1.Proper ∧ ∀ v ∈ r.2, v.Proper) (first found) := by
    cases found with
    | nil => exact reports_fail _
    | cons first rest => exact reports_pure (List.forall_mem_cons.mp h)
  split
  · exact reports_bind (Q := fun vs => ∀ v ∈ vs, v.Proper) (reports_fail _) hfirst
  · refine reports_bind (list_reports _ _ _) fun id _ => ?_
    exact reports_bind (items_reports id) hfirst
  · exact reports_bind (reports_pure h) hfirst

/-- A choice between two values is one of them. -/
theorem choice_reports {x : Action Bool} {a b : Value} (hx : Reports (fun _ => True) x)
    (ha : a.Proper) (hb : b.Proper) :
    Reports Value.Proper (do return if ← x then a else b) := by
  refine reports_bind hx fun c _ => reports_pure ?_
  cases c with
  | true => exact ha
  | false => exact hb

theorem minimum_reports (h : ∀ v ∈ args, v.Proper) : Reports Value.Proper (minimum args) := by
  refine reports_bind (candidates_reports "min" h) fun r hr => reports_foldlM hr.1 ?_
  exact fun best v hv hbest => choice_reports (before_reports _ _ _) (hr.2 v hv) hbest

theorem maximum_reports (h : ∀ v ∈ args, v.Proper) : Reports Value.Proper (maximum args) := by
  refine reports_bind (candidates_reports "max" h) fun r hr => reports_foldlM hr.1 ?_
  exact fun best v hv hbest => choice_reports (before_reports _ _ _) (hr.2 v hv) hbest

theorem plus_reports (a b : Value) : Reports Value.Proper (plus a b) := by
  unfold plus
  split
  · exact reports_pure trivial
  · refine reports_bind (toFloat_reports a) fun _ _ => ?_
    exact reports_bind (toFloat_reports b) fun _ _ => reports_pure trivial

theorem sum_reports (hn : args.length = 1) : Reports Value.Proper (sum args) := by
  obtain ⟨v, rfl⟩ := one_argument hn
  refine reports_bind (list_reports _ _ _) fun id _ => ?_
  refine reports_bind (items_reports id) fun vs _ => reports_foldlM trivial ?_
  exact fun total v _ _ => reports_bind (number_reports _ _ v) fun u _ => plus_reports total u

theorem popItem_reports (id : Nat) (index : Option Value) :
    Reports Value.Proper (popItem id index) := by
  refine reports_bind heap_reports fun _ _ => reports_check (reports_fail _) ?_
  refine reports_bind (ofOperation_reports (Operation.position_delivers _ _ _)) fun p _ => ?_
  refine reports_bind heap_reports fun h hh => ?_
  refine reports_bind (modifyHeap_reports fun h hh => hh.eraseItem id p) fun _ _ => ?_
  exact reports_pure (Operation.getD_proper fun v hv => hh.list id v (Array.mem_of_getElem? hv))

theorem pop_reports (hleast : 1 ≤ args.length) : Reports Value.Proper (pop args) := by
  obtain ⟨target, rest, rfl⟩ := List.exists_cons_of_length_pos hleast
  exact reports_bind (list_reports _ _ target) fun id _ => popItem_reports id _

theorem insertItem_reports (id : Nat) (index : Int) (hv : v.Proper) :
    Reports Value.Proper (insertItem id index v) := by
  refine reports_bind (checkIndex_reports index) fun _ _ => change_reports ?_ id
  intro xs hx w hw
  unfold Array.insertIdxIfInBounds at hw
  split at hw
  · rcases Array.mem_insertIdx.mp hw with rfl | hw
    · exact hv
    · exact hx w hw
  · exact hx w hw

theorem insert_reports (hn : args.length = 3) (h : ∀ v ∈ args, v.Proper) :
    Reports Value.Proper (Library.insert args) := by
  obtain ⟨target, index, v, rfl⟩ := three_arguments hn
  refine reports_bind (list_reports _ _ target) fun id _ => ?_
  refine reports_bind (integer_reports _ _ index) fun i _ => insertItem_reports id i ?_
  exact h v (by simp)

/-- Both ways of sorting keep the values, and are refused but for an order that is missing; then,
too, the values are kept. -/
theorem arrange_keeps (builtin : String) {vs : List Value} (h : ∀ v ∈ vs, v.Proper) :
    Sorting.Obeys (fun stop => stop.cause.Reported ∧ ∀ v ∈ stop.items, v.Proper)
      (fun arranged => ∀ v ∈ arranged, v.Proper) (arrange builtin vs) := by
  refine Sorting.obeys_ite (fun _ v hv => h v (List.mem_mergeSort.mp hv)) fun _ => ?_
  refine Sorting.obeys_mono (Sorting.sort_perm vs) (fun stop hstop => ?_) fun arranged hperm v hv =>
    h v (hperm.mem_iff.mp hv)
  obtain ⟨⟨a, b, hab⟩, hperm⟩ := hstop
  exact ⟨before_refuses hab, fun v hv => h v (hperm.mem_iff.mp hv)⟩

theorem sorted_reports (hn : args.length = 1) : Reports Value.Proper (sorted args) := by
  obtain ⟨v, rfl⟩ := one_argument hn
  refine reports_bind (list_reports _ _ _) fun id _ => ?_
  refine reports_bind (items_reports id) fun vs hvs => ?_
  have hkept := arrange_keeps "sorted" hvs
  cases hr : arrange "sorted" vs with
  | ok arranged =>
    rw [hr] at hkept
    exact newList_reports hkept
  | error stop =>
    rw [hr] at hkept
    exact reports_throw hkept.1

theorem reversed_reports (hn : args.length = 1) : Reports Value.Proper (reversed args) := by
  obtain ⟨v, rfl⟩ := one_argument hn
  unfold reversed
  split
  · refine reports_bind (items_reports _) fun vs h => newList_reports fun v hv => ?_
    exact h v (List.mem_reverse.mp hv)
  · exact reports_pure trivial
  · exact wrongKind_reports _ _ _ _
  · next hnone => exact (hnone v rfl).elim

theorem pair_reports {a b : Value} (ha : a.Proper) (hb : b.Proper) :
    Reports Value.Proper (newList [a, b]) :=
  newList_reports (List.forall_mem_cons.mpr ⟨ha, List.forall_mem_singleton.mpr hb⟩)

theorem enumerate_reports (hn : args.length = 1) : Reports Value.Proper (enumerate args) := by
  obtain ⟨v, rfl⟩ := one_argument hn
  refine reports_bind (list_reports _ _ _) fun id _ => ?_
  refine reports_bind (items_reports id) fun vs hvs => ?_
  refine reports_bind (reports_mapM fun e he => ?_) fun _ h => newList_reports h
  exact pair_reports trivial (hvs _ (List.fst_mem_of_mem_zipIdx he))

theorem zip_reports (hn : args.length = 2) : Reports Value.Proper (Library.zip args) := by
  obtain ⟨a, b, rfl⟩ := two_arguments hn
  refine reports_bind (list_reports _ _ a) fun left _ => ?_
  refine reports_bind (list_reports _ _ b) fun right _ => ?_
  refine reports_bind (items_reports left) fun xs hx => ?_
  refine reports_bind (items_reports right) fun ys hy => ?_
  refine reports_bind (reports_mapM fun e he => ?_) fun _ h => newList_reports h
  obtain ⟨hleft, hright⟩ := List.of_mem_zip he
  exact pair_reports (hx _ hleft) (hy _ hright)

theorem character_reports (hn : args.length = 1) : Reports Value.Proper (character args) := by
  obtain ⟨v, rfl⟩ := one_argument hn
  refine reports_bind (integer_reports _ _ _) fun code _ => ?_
  exact reports_ite (reports_pure trivial) (reports_fail _)

theorem codePoint_reports (hn : args.length = 1) : Reports Value.Proper (codePoint args) := by
  obtain ⟨v, rfl⟩ := one_argument hn
  refine reports_bind (string_reports _ _ _) fun text _ => ?_
  split
  · exact reports_pure trivial
  · exact reports_fail _

theorem hexadecimal_reports (hn : args.length = 1) : Reports Value.Proper (hexadecimal args) := by
  obtain ⟨v, rfl⟩ := one_argument hn
  exact reports_bind (integer_reports _ _ _) fun n _ => reports_pure trivial

theorem round_reports (hleast : 1 ≤ args.length) (hmost : args.length ≤ 2) :
    Reports Value.Proper (Library.round args) := by
  match args with
  | [v] =>
    refine reports_bind (number_reports _ _ v) fun v hv => ?_
    split
    · split
      · exact reports_pure trivial
      · exact reports_fail _
    · exact reports_pure (Value.proper_unnamed hv)
  | [v, places] =>
    refine reports_bind (number_reports _ _ v) fun v _ => ?_
    refine reports_bind (integer_reports _ _ places) fun places _ => ?_
    refine reports_bind (toFloat_reports v) fun x _ => ?_
    split
    · exact reports_pure trivial
    · exact reports_fault (.inl rfl)
  | [] => cases hleast
  | _ :: _ :: _ :: _ =>
    simp only [List.length_cons] at hmost
    omega

theorem core_reports : ∀ b ∈ core, IsReporting b := by
  have hone {b : Builtin} (hleast : b.least = some 1) (hmost : b.most = none)
      (h : ∀ args : List Value, args.length = 1 → Reports Value.Proper (b.run args)) :
      IsReporting b := fun args _ hn => h args (hn.exactly 1 hleast hmost)
  simp only [core, List.forall_mem_cons]
  exact ⟨fun args _ _ => print_reports args, hone rfl rfl fun _ => length_reports,
    fun args _ _ => input_reports args, hone rfl rfl fun _ => toText_reports,
    hone rfl rfl fun _ => toInteger_reports, hone rfl rfl fun _ => toFloatValue_reports,
    hone rfl rfl fun _ => toBoolean_reports, hone rfl rfl fun _ => typeName_reports,
    fun _ _ hn => range_reports (hn.least 1 rfl) (hn.most rfl 3 rfl),
    fun args _ _ => toList_reports args,
    fun _ h hn => append_reports (hn.exactly 2 rfl rfl) h.values,
    hone rfl rfl fun _ => keys_reports, hone rfl rfl fun _ => values_reports,
    hone rfl rfl fun _ => absolute_reports, fun _ h _ => minimum_reports h.values,
    fun _ h _ => maximum_reports h.values, hone rfl rfl fun _ => sum_reports,
    fun _ _ hn => pop_reports (hn.least 1 rfl),
    fun _ h hn => insert_reports (hn.exactly 3 rfl rfl) h.values,
    hone rfl rfl fun _ => sorted_reports, hone rfl rfl fun _ => reversed_reports,
    hone rfl rfl fun _ => enumerate_reports, fun _ _ hn => zip_reports (hn.exactly 2 rfl rfl),
    hone rfl rfl fun _ => character_reports, hone rfl rfl fun _ => codePoint_reports,
    hone rfl rfl fun _ => hexadecimal_reports,
    fun _ _ hn => round_reports (hn.least 1 rfl) (hn.most rfl 2 rfl), List.forall_mem_nil _⟩

/-! ### Methods -/

/-- A method of Strings reports if it does so for every String. -/
theorem textMethod_reports {b : Builtin} {cs : List Char} (hname : b.name.toList = 's' :: cs)
    (hdot : '.' ∈ cs)
    (h : ∀ s rest, (∀ v ∈ rest, v.Proper) → b.Takes (rest.length + 1) →
      Reports Value.Proper (b.run (.string s :: rest))) :
    IsReporting b := by
  intro args hargs hn
  obtain ⟨v, rest, rfl, hv⟩ := hargs.receiver (hname ▸ List.mem_cons_of_mem _ hdot)
  obtain ⟨s, rfl⟩ := Value.text_of_serves hname hv
  exact h s rest (List.forall_mem_cons.mp hargs.values).2 hn

theorem listMethod_reports {b : Builtin} {cs : List Char} (hname : b.name.toList = 'l' :: cs)
    (hdot : '.' ∈ cs)
    (h : ∀ id rest, (∀ v ∈ rest, v.Proper) → b.Takes (rest.length + 1) →
      Reports Value.Proper (b.run (.list id :: rest))) :
    IsReporting b := by
  intro args hargs hn
  obtain ⟨v, rest, rfl, hv⟩ := hargs.receiver (hname ▸ List.mem_cons_of_mem _ hdot)
  obtain ⟨id, rfl⟩ := Value.list_of_serves hname hv
  exact h id rest (List.forall_mem_cons.mp hargs.values).2 hn

theorem mapMethod_reports {b : Builtin} {cs : List Char} (hname : b.name.toList = 'm' :: cs)
    (hdot : '.' ∈ cs)
    (h : ∀ id rest, (∀ v ∈ rest, v.Proper) → b.Takes (rest.length + 1) →
      Reports Value.Proper (b.run (.mapping id :: rest))) :
    IsReporting b := by
  intro args hargs hn
  obtain ⟨v, rest, rfl, hv⟩ := hargs.receiver (hname ▸ List.mem_cons_of_mem _ hdot)
  obtain ⟨id, rfl⟩ := Value.mapping_of_serves hname hv
  exact h id rest (List.forall_mem_cons.mp hargs.values).2 hn

namespace TextMethod

variable {s : String}

theorem method_name (name : String) :
    ("str." ++ name).toList = 's' :: ("tr.".toList ++ name.toList) := String.toList_append

theorem method_dot (name : String) : '.' ∈ "tr.".toList ++ name.toList :=
  List.mem_append_left _ (by decide)

theorem mapped_reports (name : String) (f : List Char → List Char) :
    IsReporting (mapped name f) := by
  refine textMethod_reports (method_name name) (method_dot name) fun s rest _ hn => ?_
  obtain rfl := List.eq_nil_of_length_eq_zero (hn.after 0 rfl rfl)
  exact reports_given (reports_pure trivial)

theorem split_reports (hmost : rest.length ≤ 1) :
    Reports Value.Proper (split (.string s :: rest)) := by
  have htexts (f : List Char → List (List Char)) : Reports Value.Proper (do
      newList ((f (← receiverText "split" (.string s))).map textValue)) := by
    refine reports_given (newList_reports ?_)
    exact List.forall_mem_map.mpr fun _ _ => trivial
  rcases rest with _ | ⟨separator, _ | ⟨_, _⟩⟩
  · exact htexts Text.words
  · refine reports_bind (string_reports _ _ separator) fun separator _ => ?_
    exact reports_check (reports_fail _) (htexts (Text.splitOn separator.toList))
  · simp only [List.length_cons] at hmost
    omega

theorem piece_reports (v : Value) : Reports (fun _ => True) (piece v) := by
  unfold piece
  split
  · exact reports_pure trivial
  · exact reports_fail _

theorem join_reports (hn : rest.length = 1) :
    Reports Value.Proper (join (.string s :: rest)) := by
  obtain ⟨pieces, rfl⟩ := one_argument hn
  refine reports_bind (list_reports _ _ pieces) fun id _ => ?_
  refine reports_given (reports_bind (items_reports id) fun vs _ => ?_)
  exact reports_bind (reports_mapM fun v _ => piece_reports v) fun _ _ => reports_pure trivial

theorem searching_reports (name : String) {f : List Char → List Char → Value}
    (hf : ∀ part text, (f part text).Proper) : IsReporting (searching name f) := by
  refine textMethod_reports (method_name name) (method_dot name) fun s rest _ hn => ?_
  obtain ⟨argument, rfl⟩ := one_argument (hn.after 1 rfl rfl)
  refine reports_given (reports_bind (string_reports _ _ argument) fun _ _ => ?_)
  exact reports_pure (hf _ _)

theorem position_proper (part text : List Char) : (position part text).Proper := by
  unfold position
  split <;> trivial

theorem contains_reports (hn : rest.length = 1) :
    Reports Value.Proper (contains (.string s :: rest)) := by
  obtain ⟨argument, rfl⟩ := one_argument hn
  exact reports_bind (string_reports _ _ argument) fun _ _ => reports_pure trivial

theorem replace_reports (hn : rest.length = 2) :
    Reports Value.Proper (replace (.string s :: rest)) := by
  obtain ⟨old, new, rfl⟩ := two_arguments hn
  refine reports_bind (string_reports _ _ old) fun _ _ => ?_
  refine reports_bind (string_reports _ _ new) fun _ _ => ?_
  exact reports_given (reports_pure trivial)

end TextMethod

theorem textMethods_reports : ∀ b ∈ textMethods, IsReporting b := by
  have hmethod {b : Builtin} {cs : List Char} (hname : b.name.toList = 's' :: cs) (hdot : '.' ∈ cs)
      (h : ∀ s rest, b.Takes (List.length rest + 1) →
        Reports Value.Proper (b.run (.string s :: rest))) : IsReporting b :=
    textMethod_reports hname hdot fun s rest _ => h s rest
  have hflag (name : String) (f : List Char → List Char → Bool) :
      IsReporting (TextMethod.searching name fun part text => .boolean (f part text)) :=
    TextMethod.searching_reports name fun _ _ => trivial
  simp only [textMethods, List.forall_mem_cons, TextMethod.mapped_reports, true_and]
  exact ⟨hmethod rfl (by decide) fun s _ hn =>
      TextMethod.split_reports (Nat.le_of_succ_le_succ (hn.most rfl 2 rfl)),
    hmethod rfl (by decide) fun s _ hn => TextMethod.join_reports (hn.after 1 rfl rfl),
    TextMethod.searching_reports _ TextMethod.position_proper,
    hmethod rfl (by decide) fun s _ hn => TextMethod.replace_reports (hn.after 2 rfl rfl),
    hflag _ _, hflag _ _, TextMethod.searching_reports _ fun _ _ => trivial,
    hmethod rfl (by decide) fun s _ hn => TextMethod.contains_reports (hn.after 1 rfl rfl),
    List.forall_mem_nil _⟩

namespace ListMethod

variable {id : Nat}

theorem append_reports (hn : rest.length = 1) (h : ∀ v ∈ rest, v.Proper) :
    Reports Value.Proper (append (.list id :: rest)) := by
  obtain ⟨v, rfl⟩ := one_argument hn
  exact reports_given (change_reports (push_proper (h v (by simp))) id)

theorem pop_reports (rest : List Value) : Reports Value.Proper (pop (.list id :: rest)) :=
  reports_given (popItem_reports id _)

theorem insert_reports (hn : rest.length = 2) (h : ∀ v ∈ rest, v.Proper) :
    Reports Value.Proper (insert (.list id :: rest)) := by
  obtain ⟨index, v, rfl⟩ := two_arguments hn
  refine reports_given (reports_bind (integer_reports _ _ index) fun i _ => ?_)
  exact insertItem_reports id i (h v (by simp))

theorem needed_reports (id : Nat) (v : Value) : Reports (fun _ => True) (needed id v) := by
  refine reports_bind heap_reports fun h _ => ?_
  split
  · exact reports_pure trivial
  · exact reports_fail _

theorem remove_reports (hn : rest.length = 1) :
    Reports Value.Proper (remove (.list id :: rest)) := by
  obtain ⟨v, rfl⟩ := one_argument hn
  refine reports_given (reports_bind (needed_reports id v) fun i _ => ?_)
  exact reports_bind (modifyHeap_reports fun h hh => hh.eraseItem id i) fun _ _ => reports_none

theorem reverse_reports : Reports Value.Proper (reverse [.list id]) :=
  reports_given (change_reports (fun xs hx v hv => hx v (by simpa using hv)) id)

theorem clear_reports : Reports Value.Proper (clear [.list id]) :=
  reports_given (change_reports (fun _ _ v hv => absurd hv (Array.not_mem_empty v)) id)

theorem index_reports (hn : rest.length = 1) :
    Reports Value.Proper (index (.list id :: rest)) := by
  obtain ⟨v, rfl⟩ := one_argument hn
  exact reports_given (reports_bind (needed_reports id v) fun _ _ => reports_pure trivial)

theorem count_reports (hn : rest.length = 1) :
    Reports Value.Proper (count (.list id :: rest)) := by
  obtain ⟨v, rfl⟩ := one_argument hn
  exact reports_given (reports_bind heap_reports fun _ _ => reports_pure trivial)

theorem copy_reports : Reports Value.Proper (copy [.list id]) :=
  reports_given (reports_bind (items_reports id) fun _ h => newList_reports h)

theorem extend_reports (hn : rest.length = 1) :
    Reports Value.Proper (extend (.list id :: rest)) := by
  obtain ⟨other, rfl⟩ := one_argument hn
  refine reports_bind (list_reports _ _ other) fun source _ => reports_given ?_
  refine reports_bind (items_reports source) fun added hadded => change_reports ?_ id
  intro xs hx v hv
  rcases Array.mem_append.mp hv with hv | hv
  · exact hx v hv
  · exact hadded v (List.mem_toArray.mp hv)

theorem sort_reports : Reports Value.Proper (sort [.list id]) := by
  have hitems {vs : List Value} (h : ∀ v ∈ vs, v.Proper) (xs : Array Value)
      (_ : ∀ v ∈ xs, v.Proper) : ∀ v ∈ vs.toArray, v.Proper :=
    fun v hv => h v (List.mem_toArray.mp hv)
  refine reports_given (reports_bind (items_reports id) fun vs hvs => ?_)
  have hkept := arrange_keeps "sort" hvs
  cases hr : arrange "sort" vs with
  | ok arranged =>
    rw [hr] at hkept
    exact change_reports (hitems hkept) id
  | error stop =>
    rw [hr] at hkept
    exact reports_bind (modifyHeap_reports fun _ hh => hh.modifyList id (hitems hkept.2))
      fun _ _ => reports_throw hkept.1

end ListMethod

theorem listMethods_reports : ∀ b ∈ listMethods, IsReporting b := by
  have hmethod {b : Builtin} {cs : List Char} (hname : b.name.toList = 'l' :: cs) (hdot : '.' ∈ cs)
      (h : ∀ id rest, b.Takes (List.length rest + 1) →
        Reports Value.Proper (b.run (.list id :: rest))) : IsReporting b :=
    listMethod_reports hname hdot fun id rest _ => h id rest
  have halone {b : Builtin} {cs : List Char} (hname : b.name.toList = 'l' :: cs) (hdot : '.' ∈ cs)
      (hleast : b.least = some 1) (hmost : b.most = none)
      (h : ∀ id, Reports Value.Proper (b.run [.list id])) : IsReporting b :=
    hmethod hname hdot fun id rest hn =>
      List.eq_nil_of_length_eq_zero (hn.after 0 hleast hmost) ▸ h id
  simp only [listMethods, List.forall_mem_cons]
  exact ⟨listMethod_reports rfl (by decide) fun id rest h hn =>
      ListMethod.append_reports (hn.after 1 rfl rfl) h,
    hmethod rfl (by decide) fun id rest _ => ListMethod.pop_reports rest,
    listMethod_reports rfl (by decide) fun id rest h hn =>
      ListMethod.insert_reports (hn.after 2 rfl rfl) h,
    hmethod rfl (by decide) fun id _ hn => ListMethod.remove_reports (hn.after 1 rfl rfl),
    halone rfl (by decide) rfl rfl fun id => ListMethod.reverse_reports,
    halone rfl (by decide) rfl rfl fun id => ListMethod.clear_reports,
    hmethod rfl (by decide) fun id _ hn => ListMethod.index_reports (hn.after 1 rfl rfl),
    hmethod rfl (by decide) fun id _ hn => ListMethod.count_reports (hn.after 1 rfl rfl),
    halone rfl (by decide) rfl rfl fun id => ListMethod.copy_reports,
    hmethod rfl (by decide) fun id _ hn => ListMethod.extend_reports (hn.after 1 rfl rfl),
    halone rfl (by decide) rfl rfl fun id => ListMethod.sort_reports, List.forall_mem_nil _⟩

namespace MapMethod

variable {id : Nat}

theorem get_reports (hleast : 1 ≤ rest.length) (h : ∀ v ∈ rest, v.Proper) :
    Reports Value.Proper (get (.mapping id :: rest)) := by
  obtain ⟨key, rest, rfl⟩ := List.exists_cons_of_length_pos hleast
  refine reports_bind (ofOperation_reports (Operation.checkKey_delivers key)) fun _ _ => ?_
  refine reports_given (reports_bind (mapping_reports id) fun m hm => reports_pure ?_)
  cases hv : m.get? key with
  | some v => exact hm.get hv
  | none =>
    cases rest with
    | nil => trivial
    | cons fallback _ => exact h fallback (by simp)

theorem keys_reports : Reports Value.Proper (keys [.mapping id]) :=
  reports_given (reports_bind (mapping_reports id) fun _ h => newList_reports h.keys)

theorem values_reports : Reports Value.Proper (values [.mapping id]) :=
  reports_given (reports_bind (mapping_reports id) fun _ h => newList_reports h.values)

theorem entries_reports : Reports Value.Proper (entries [.mapping id]) := by
  refine reports_given (reports_bind (mapping_reports id) fun m hm => ?_)
  refine reports_bind (reports_mapM fun e he => ?_) fun _ h => newList_reports h
  exact pair_reports (hm e he).1 (hm e he).2

theorem clear_reports : Reports Value.Proper (clear [.mapping id]) := by
  have hclear : Operation.Edit.Proper (·.modifyMapping id fun _ => .empty) :=
    fun h hh => hh.modifyMapping id fun _ _ => Mapping.empty_proper
  exact reports_given (reports_bind (modifyHeap_reports hclear) fun _ _ => reports_none)

theorem update_reports (hn : rest.length = 1) :
    Reports Value.Proper (update (.mapping id :: rest)) := by
  obtain ⟨other, rfl⟩ := one_argument hn
  refine reports_bind (map_reports _ _ other) fun source _ => ?_
  refine reports_bind (mapping_reports source) fun added hadded => ?_
  have hset : Operation.Edit.Proper (·.modifyMapping id (·.setAll added.entries)) :=
    fun h hh => hh.modifyMapping id fun m hm => hm.setAll hadded
  refine reports_ite (reports_given ?_) reports_none
  exact reports_bind (modifyHeap_reports hset) fun _ _ => reports_none

theorem pop_reports (hleast : 1 ≤ rest.length) (h : ∀ v ∈ rest, v.Proper) :
    Reports Value.Proper (pop (.mapping id :: rest)) := by
  obtain ⟨key, rest, rfl⟩ := List.exists_cons_of_length_pos hleast
  refine reports_bind (ofOperation_reports (Operation.checkKey_delivers key)) fun _ _ => ?_
  refine reports_given (reports_bind (mapping_reports id) fun m hm => ?_)
  have herase : Operation.Edit.Proper (·.modifyMapping id (·.erase key)) :=
    fun h hh => hh.modifyMapping id fun m hm => hm.erase key
  split
  · next v hv =>
    exact reports_bind (modifyHeap_reports herase) fun _ _ => reports_pure (hm.get hv)
  · next fallback _ _ => exact reports_pure (h fallback (by simp))
  · exact reports_fail _

end MapMethod

theorem mapMethods_reports : ∀ b ∈ mapMethods, IsReporting b := by
  have halone {b : Builtin} {cs : List Char} (hname : b.name.toList = 'm' :: cs) (hdot : '.' ∈ cs)
      (hleast : b.least = some 1) (hmost : b.most = none)
      (h : ∀ id, Reports Value.Proper (b.run [.mapping id])) : IsReporting b :=
    mapMethod_reports hname hdot fun id rest _ hn =>
      List.eq_nil_of_length_eq_zero (hn.after 0 hleast hmost) ▸ h id
  simp only [mapMethods, List.forall_mem_cons]
  exact ⟨mapMethod_reports rfl (by decide) fun id rest h hn =>
      MapMethod.get_reports (Nat.le_of_succ_le_succ (hn.least 2 rfl)) h,
    halone rfl (by decide) rfl rfl fun id => MapMethod.keys_reports,
    halone rfl (by decide) rfl rfl fun id => MapMethod.values_reports,
    halone rfl (by decide) rfl rfl fun id => MapMethod.entries_reports,
    halone rfl (by decide) rfl rfl fun id => MapMethod.clear_reports,
    mapMethod_reports rfl (by decide) fun id rest _ hn =>
      MapMethod.update_reports (hn.after 1 rfl rfl),
    mapMethod_reports rfl (by decide) fun id rest h hn =>
      MapMethod.pop_reports (Nat.le_of_succ_le_succ (hn.least 2 rfl)) h,
    List.forall_mem_nil _⟩

/-! ### Arithmetic, JSON and tables -/

namespace Arithmetic

theorem argument_reports (v : Value) : Reports (fun _ => True) (argument v) := by
  unfold argument
  split
  · split
    · exact reports_pure trivial
    · exact reports_fail _
  · exact toFloat_reports _

/-- A function of numbers reports if it does so for every list of as many Floats. -/
theorem numbers_report (name : String) {f : List Float → Action Value}
    (h : ∀ xs : List Float, xs.length = args.length → Reports Value.Proper (f xs)) :
    Reports Value.Proper (arguments name args >>= f) := by
  have harguments : Reports (fun xs => xs.length = args.length) (arguments name args) := by
    refine reports_bind (reports_each fun v _ => number_reports _ _ v) fun vs hvs => ?_
    exact reports_imp (reports_each fun v _ => argument_reports v) fun xs hxs => hxs.trans hvs
  exact reports_bind harguments h

theorem function_reports (name : String) (outgrows : Bool) (f : Float → Float) :
    IsReporting (function name outgrows f) := by
  refine fun args _ hn => numbers_report name fun xs hxs => ?_
  obtain ⟨x, rfl⟩ := List.length_eq_one_iff.mp (hxs.trans (hn.exactly 1 rfl rfl))
  exact reports_ite (reports_fail _) (reports_ite (reports_fail _) (reports_pure trivial))

theorem rounding_reports (name : String) (f : Float → Option Int) :
    IsReporting (rounding name f) := by
  refine fun args _ hn => numbers_report name fun xs hxs => ?_
  obtain ⟨x, rfl⟩ := List.length_eq_one_iff.mp (hxs.trans (hn.exactly 1 rfl rfl))
  dsimp only
  split
  · exact reports_pure trivial
  · exact reports_fail _

theorem binaryFunction_reports (name : String) {f : Float → Float → Action Value}
    (hf : ∀ x y, Reports Value.Proper (f x y)) : IsReporting (binaryFunction name f) := by
  refine fun args _ hn => numbers_report name fun xs hxs => ?_
  obtain ⟨x, y, rfl⟩ := List.length_eq_two.mp (hxs.trans (hn.exactly 2 rfl rfl))
  exact hf x y

theorem constant_reports (name : String) {v : Value} (hv : v.Proper) :
    IsReporting (constant name v) :=
  fun _ _ _ => reports_pure hv

/-- Unlike the operator, the function for remainders has a failure for an infinite dividend. -/
theorem remainder_reports (x y : Float) : Reports Value.Proper (remainder x y) := by
  unfold remainder
  split
  · exact reports_pure trivial
  · exact reports_fail _

theorem power_reports (x y : Float) : Reports Value.Proper (power x y) := by
  refine reports_ite (reports_pure trivial) (reports_ite (reports_fail _) ?_)
  exact reports_ite (reports_fail _) (reports_pure trivial)

end Arithmetic

theorem arithmetic_reports : ∀ b ∈ arithmetic, IsReporting b := by
  simp only [arithmetic, List.forall_mem_cons, Arithmetic.function_reports,
    Arithmetic.rounding_reports, true_and]
  exact ⟨Arithmetic.binaryFunction_reports _ Arithmetic.remainder_reports,
    Arithmetic.binaryFunction_reports _ fun _ _ => reports_pure trivial,
    Arithmetic.binaryFunction_reports _ Arithmetic.power_reports,
    Arithmetic.constant_reports _ trivial, Arithmetic.constant_reports _ trivial,
    Arithmetic.constant_reports _ trivial, Arithmetic.constant_reports _ trivial,
    Arithmetic.constant_reports _ trivial, List.forall_mem_nil _⟩

namespace JsonText

mutual
theorem value_reports : (j : Json) → Reports Value.Proper (value j)
  | .null | .boolean _ | .integer _ | .string _ => by
    unfold value
    exact reports_pure trivial
  | .float x => by
    unfold value
    exact reports_pure (Value.proper_ofDocument x)
  | .array parts => by
    unfold value
    exact reports_bind (values_reports parts) fun _ h => newList_reports h
  | .object fields => by
    unfold value
    refine reports_bind (entries_reports fields) fun _ h => newMapping_reports ?_
    exact Mapping.ofEntries_proper h
theorem values_reports : (js : List Json) → Reports (fun vs => ∀ v ∈ vs, v.Proper) (values js)
  | [] => by
    unfold values
    exact reports_pure (List.forall_mem_nil _)
  | j :: rest => by
    unfold values
    refine reports_bind (value_reports j) fun v hv => ?_
    refine reports_bind (values_reports rest) fun vs hvs => reports_pure ?_
    exact List.forall_mem_cons.mpr ⟨hv, hvs⟩
theorem entries_reports : (fields : List (String × Json)) →
    Reports (fun es => ∀ e ∈ es, e.1.Proper ∧ e.2.Proper) (entries fields)
  | [] => by
    unfold entries
    exact reports_pure (List.forall_mem_nil _)
  | (key, j) :: rest => by
    unfold entries
    refine reports_bind (value_reports j) fun v hv => ?_
    refine reports_bind (entries_reports rest) fun es hes => reports_pure ?_
    exact List.forall_mem_cons.mpr ⟨⟨trivial, hv⟩, hes⟩
end

theorem parse_reports (hn : args.length = 1) : Reports Value.Proper (parse args) := by
  obtain ⟨v, rfl⟩ := one_argument hn
  refine reports_bind (string_reports _ _ v) fun text _ => ?_
  split
  · exact value_reports _
  · exact reports_fail _

theorem indentation_reports (n : Int) : Reports (fun _ => True) (indentation n) := by
  unfold indentation
  refine reports_check (reports_fault (.inl rfl)) ?_
  exact reports_check (reports_fault (.inr rfl)) (reports_pure trivial)

theorem stringify_reports (hleast : 1 ≤ args.length) :
    Reports Value.Proper (stringify args) := by
  have hindented (indent : Option Int) :
      Reports (fun _ => True) (indent.mapM indentation : Action (Option Nat)) := by
    cases indent with
    | none => exact reports_pure trivial
    | some n => exact reports_bind (indentation_reports n) fun _ _ => reports_pure trivial
  unfold stringify
  split
  · next v rest =>
    extract_lets written
    have hwritten (indent : Option Int) : Reports Value.Proper (written indent) := by
      refine reports_bind heap_reports fun h _ => ?_
      split
      · exact reports_fail _
      · exact reports_pure trivial
      · refine reports_bind (hindented indent) fun _ _ => ?_
        exact reports_check (reports_fail _) (reports_pure trivial)
    split
    · exact reports_given (hwritten _)
    · refine reports_bind (integer_reports _ _ _) fun n _ => ?_
      exact reports_given (hwritten _)
  · cases hleast

end JsonText

theorem json_reports : ∀ b ∈ json, IsReporting b := by
  simp only [json, List.forall_mem_cons]
  exact ⟨fun _ _ hn => JsonText.parse_reports (hn.exactly 1 rfl rfl),
    fun _ _ hn => JsonText.stringify_reports (hn.least 1 rfl), List.forall_mem_nil _⟩

namespace Table

theorem delimiter_reports (builtin : String) (args : List Value) :
    Reports (fun _ => True) (delimiter builtin args) := by
  unfold delimiter
  split
  · exact reports_pure trivial
  · refine reports_bind (string_reports _ _ _) fun text _ => ?_
    split
    · exact reports_pure trivial
    · exact reports_fail _

theorem hasHeader_reports (args : List Value) : Reports (fun _ => True) (hasHeader args) := by
  unfold hasHeader
  split
  · exact reports_pure trivial
  · exact boolean_reports _ _ _

theorem record_proper (header row : List String) : (record header row).Proper :=
  Mapping.ofEntries_proper (List.forall_mem_map.mpr fun _ _ => ⟨trivial, trivial⟩)

theorem parse_reports (hleast : 1 ≤ args.length) : Reports Value.Proper (parse args) := by
  obtain ⟨v, rest, rfl⟩ := List.exists_cons_of_length_pos hleast
  refine reports_bind (string_reports _ _ v) fun text _ => ?_
  refine reports_bind (delimiter_reports _ rest) fun delimiter _ => ?_
  refine reports_bind (hasHeader_reports _) fun header _ => ?_
  split
  · exact reports_fail _
  · exact reports_fail _
  · refine reports_ite ?_ ?_
    · refine reports_bind (reports_mapM fun row _ => ?_) fun _ h => newList_reports h
      exact newMapping_reports (record_proper _ row)
    · refine reports_bind (reports_mapM fun row _ => ?_) fun _ h => newList_reports h
      exact newList_reports (List.forall_mem_map.mpr fun _ _ => trivial)

theorem stringify_reports (hleast : 1 ≤ args.length) :
    Reports Value.Proper (stringify args) := by
  obtain ⟨v, rest, rfl⟩ := List.exists_cons_of_length_pos hleast
  refine reports_bind (list_reports _ _ v) fun id _ => ?_
  refine reports_bind (delimiter_reports _ rest) fun delimiter _ => ?_
  refine reports_bind heap_reports fun h _ => reports_bind (items_reports id) fun data _ => ?_
  have hquoting : Reports (fun _ => True) quoting := reports_modifyGet fun _ hw => ⟨trivial, hw⟩
  split
  · exact reports_bind hquoting fun _ _ => reports_pure trivial
  · exact reports_fail _

end Table

theorem csv_reports : ∀ b ∈ csv, IsReporting b := by
  simp only [csv, List.forall_mem_cons]
  exact ⟨fun _ _ hn => Table.parse_reports (hn.least 1 rfl),
    fun _ _ hn => Table.stringify_reports (hn.least 1 rfl), List.forall_mem_nil _⟩

/-! ### The whole library -/

theorem mem_register {r : Registry} {b c : Builtin} (h : c ∈ (r.register b).builtins) :
    c ∈ r.builtins ∨ c = b := by
  unfold Registry.register at h
  split at h
  · obtain ⟨old, hold, heq⟩ := List.mem_map.mp h
    split at heq
    · exact .inr heq.symm
    · exact .inl (heq ▸ hold)
  · rw [List.mem_append, List.mem_singleton] at h
    exact h

theorem mem_registerAll {r : Registry} {bs : List Builtin} {c : Builtin}
    (h : c ∈ (r.registerAll bs).builtins) : c ∈ r.builtins ∨ c ∈ bs := by
  induction bs generalizing r with
  | nil => exact .inl h
  | cons b bs ih =>
    rcases ih h with h | h
    · rcases mem_register h with h | rfl
      · exact .inl h
      · exact .inr List.mem_cons_self
    · exact .inr (List.mem_cons_of_mem _ h)

/-- The standard registry has builtins of the library only. -/
theorem standard_builtins : ∀ b ∈ standard.builtins, b ∈ builtins := by
  intro b hb
  rcases mem_registerAll hb with hb | hb
  · exact absurd hb List.not_mem_nil
  · exact hb

/-- A builtin of the library whose name does not tell of the disk reports what it refuses. -/
theorem library_reports {b : Builtin} (hb : b ∈ builtins) (hname : isDiskName b.name = false) :
    IsReporting b := by
  simp only [builtins, methods, List.mem_append] at hb
  rcases hb with (((((hb | (hb | hb) | hb) | hb) | hb) | hb) | hb) | hb
  · exact core_reports b hb
  · exact textMethods_reports b hb
  · exact listMethods_reports b hb
  · exact mapMethods_reports b hb
  · exact absurd (disk_names b (List.mem_append_left _ hb)) (by simp [hname])
  · exact absurd (disk_names b (List.mem_append_right _ hb)) (by simp [hname])
  · exact arithmetic_reports b hb
  · exact json_reports b hb
  · exact csv_reports b hb

end Library

end Offside
