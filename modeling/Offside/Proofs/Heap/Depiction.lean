import Offside.Library.Json
import Offside.Proofs.Fallible
import Offside.Proofs.Heap.Display
import Offside.Proofs.Json
import Offside.Proofs.Key

/-!
JSON data of values. A value has data where nothing in it holds itself, is a function or has a key
that is no String; the data then hold an item for every item and a field for every key.
-/

namespace Offside.Heap

open Relation Library.JsonText

variable {h h' : Heap} {u v : Value} {j : Json} {i n fuel : Nat} {path : Enclosing}
  {P : Value → Prop}

/-- A value itself, or one that it holds, directly or not. -/
def Within (h : Heap) : Value → Value → Prop := ReflTransGen h.ItemOf

/-- Everything within a value has a property. -/
def Throughout (h : Heap) (P : Value → Prop) (v : Value) : Prop := ∀ u, h.Within u v → P u

theorem Throughout.self (ht : h.Throughout P v) : P v := ht v .refl

theorem Throughout.item (ht : h.Throughout P v) (hu : h.ItemOf u v) : h.Throughout P u :=
  fun t htu => ht t (htu.tail hu)

theorem throughout_of {Q : Value → Prop} (hv : Q v)
    (hitem : ∀ u t, Q u → h.ItemOf t u → Q t) (hP : ∀ u, Q u → P u) : h.Throughout P v := by
  intro u hu
  refine hP u ?_
  induction hu using ReflTransGen.head_induction_on with
  | refl => exact hv
  | head htu _ ih => exact hitem _ _ ih htu

/-- A value of the language, whose object, if it is one, is in the heap; a Mapping has every key
once. -/
def Carries (h : Heap) : Value → Prop
  | .list i => i < h.lists.size
  | .mapping i => i < h.mappings.size ∧ (h.mapping i).Distinct
  | .foreign _ => False
  | _ => True

/-- A value that keeps nothing from having JSON data. -/
structure Convertible (h : Heap) (v : Value) : Prop where
  acyclic : ¬ h.Below v v
  data : v.kind ≠ .function ∧ v.kind ≠ .nativeFunction
  keys : ∀ i, v = .mapping i → ∀ key ∈ (h.mapping i).keys, key.kind = .string

/-- The data of a value without Floats. -/
inductive Depicts (h : Heap) : Value → Json → Prop where
  | null : Depicts h .none .null
  | boolean (b : Bool) : Depicts h (.boolean b) (.boolean b)
  | integer (n : Int) : Depicts h (.integer n) (.integer n)
  | string (s : String) : Depicts h (.string s) (.string s)
  | list {i : Nat} {js : List Json} : i < h.lists.size → (h.list i).size = js.length →
      (∀ p ∈ (h.list i).toList.zip js, Depicts h p.1 p.2) → Depicts h (.list i) (.array js)
  | mapping {i : Nat} {fields : List (String × Json)} : i < h.mappings.size →
      (h.mapping i).Distinct → (h.mapping i).keys = fields.map (.string ·.1) →
      (∀ p ∈ (h.mapping i).entries.zip fields, Depicts h p.1.2 p.2.2) →
      Depicts h (.mapping i) (.object fields)

/-! ### Conversion -/

theorem datumWithin_list : datumWithin h (n + 1) path (.list i) = .ok j ↔
    i ∉ path.lists ∧ ∃ js, j = .array js ∧ List.Forall₂
      (fun v j => datumWithin h n { path with lists := i :: path.lists } v = .ok j)
      (h.list i).toList js := by
  simp only [datumWithin]
  by_cases hi : path.lists.contains i = true
  · have hthere : i ∈ path.lists := by simpa using hi
    rw [if_pos hi]
    exact ⟨fun h => (by cases h), fun h => absurd hthere h.1⟩
  · have haway : i ∉ path.lists := by simpa using hi
    rw [if_neg hi]
    simp only [haway, not_false_eq_true, true_and, ← mapM_ok_iff]
    refine except_bind_ok.trans ⟨?_, ?_⟩
    · rintro ⟨js, hjs, hj⟩
      cases hj
      exact ⟨js, rfl, hjs⟩
    · rintro ⟨js, rfl, hjs⟩
      exact ⟨js, hjs, rfl⟩

theorem datumWithin_mapping : datumWithin h (n + 1) path (.mapping i) = .ok j ↔
    i ∉ path.mappings ∧ ∃ fields, j = .object fields ∧ List.Forall₂
      (fun e f => e.1 = .string f.1 ∧
        datumWithin h n { path with mappings := i :: path.mappings } e.2 = .ok f.2)
      (h.mapping i).entries fields := by
  simp only [datumWithin]
  by_cases hi : path.mappings.contains i = true
  · have hthere : i ∈ path.mappings := by simpa using hi
    rw [if_pos hi]
    exact ⟨fun h => (by cases h), fun h => absurd hthere h.1⟩
  · have haway : i ∉ path.mappings := by simpa using hi
    rw [if_neg hi]
    simp only [haway, not_false_eq_true, true_and]
    refine except_bind_ok.trans ⟨?_, ?_⟩
    · rintro ⟨fields, hfields, hj⟩
      cases hj
      refine ⟨fields, rfl, (mapM_ok_iff.mp hfields).imp fun e f hef => ?_⟩
      obtain ⟨key, v⟩ := e
      cases key with
      | string s =>
        obtain ⟨j, hj, hf⟩ := except_bind_ok.mp hef
        cases hf
        exact ⟨rfl, hj⟩
      | _ => cases hef
    · rintro ⟨fields, rfl, hfields⟩
      refine ⟨fields, mapM_ok_iff.mpr (hfields.imp fun e f hef => ?_), rfl⟩
      obtain ⟨key, v⟩ := e
      obtain ⟨rfl, hj⟩ := hef
      exact except_bind_ok.mpr ⟨_, hj, rfl⟩

/-- What can have data has them, within the fuel that a path leaves. -/
theorem exists_datum (hr : h.Room fuel path) (hp : h.Inside path v) (hc : h.Throughout h.Carries v)
    (hv : h.Throughout h.Convertible v) : ∃ j, datumWithin h fuel path v = .ok j := by
  induction fuel using Nat.strong_induction_on generalizing path v with
  | _ fuel ih =>
    have hdata := hv.self.data
    cases v with
    | list i =>
      have hn : i ∉ path.lists := fun hm => hv.self.acyclic (hp.lists i hm)
      obtain ⟨n, rfl, hr'⟩ := hr.step_list hc.self hn
      obtain ⟨js, hjs⟩ := forall₂_exists fun u (hu : u ∈ (h.list i).toList) =>
        ih n (Nat.lt_succ_self n) hr' (hp.step_list hu) (hc.item hu) (hv.item hu)
      exact ⟨.array js, datumWithin_list.mpr ⟨hn, js, rfl, hjs⟩⟩
    | mapping i =>
      have hn : i ∉ path.mappings := fun hm => hv.self.acyclic (hp.mappings i hm)
      obtain ⟨n, rfl, hr'⟩ := hr.step_mapping hc.self.1 hn
      have hfield : ∀ e ∈ (h.mapping i).entries, ∃ f : String × Json, e.1 = .string f.1 ∧
          datumWithin h n { path with mappings := i :: path.mappings } e.2 = .ok f.2 := by
        intro e he
        have hitem : h.ItemOf e.2 (.mapping i) := ⟨e, he, rfl⟩
        have hkey := hv.self.keys i rfl e.1 (List.mem_map_of_mem he)
        obtain ⟨j, hj⟩ := ih n (Nat.lt_succ_self n) hr' (hp.step_mapping hitem) (hc.item hitem)
          (hv.item hitem)
        cases hk : e.1 with
        | string s => exact ⟨(s, j), rfl, hj⟩
        | _ => simp [hk, Value.kind] at hkey
      obtain ⟨fields, hfields⟩ := forall₂_exists hfield
      exact ⟨.object fields, datumWithin_mapping.mpr ⟨hn, fields, rfl, hfields⟩⟩
    | function | native | bound => simp [Value.kind] at hdata
    | foreign => exact hc.self.elim
    | _ => exact ⟨_, by cases fuel <;> rfl⟩

theorem depicts_atom (hv : v.isContainer = false) (hfloat : v.kind ≠ .float)
    (hj : datumWithin h fuel path v = .ok j) : h.Depicts v j := by
  cases v with
  | none =>
    cases fuel <;> cases hj <;> exact .null
  | boolean b =>
    cases fuel <;> cases hj <;> exact .boolean b
  | integer n =>
    cases fuel <;> cases hj <;> exact .integer n
  | string s =>
    cases fuel <;> cases hj <;> exact .string s
  | float | nan => exact absurd rfl hfloat
  | list | mapping => cases hv
  | _ => cases fuel <;> cases hj

/-- The data that a conversion gives are those of the value. -/
theorem depicts_of_datum (hc : h.Throughout h.Carries v)
    (hfloat : h.Throughout (fun u => u.kind ≠ .float) v)
    (hj : datumWithin h fuel path v = .ok j) : h.Depicts v j := by
  induction fuel generalizing path v j with
  | zero =>
    refine depicts_atom ?_ hfloat.self hj
    cases v <;> first | rfl | cases hj
  | succ n ih =>
    cases v with
    | list i =>
      obtain ⟨-, js, rfl, hjs⟩ := datumWithin_list.mp hj
      obtain ⟨hlen, hzip⟩ := List.forall₂_iff_zip.mp hjs
      refine .list hc.self (by simpa using hlen) fun p hp => ?_
      have hitem : h.ItemOf p.1 (.list i) := (List.of_mem_zip hp).1
      exact ih (hc.item hitem) (hfloat.item hitem) (hzip hp)
    | mapping i =>
      obtain ⟨-, fields, rfl, hfields⟩ := datumWithin_mapping.mp hj
      have hkeys : (h.mapping i).keys = fields.map (.string ·.1) :=
        List.forall₂_eq_eq_eq ▸ List.forall₂_map_left_iff.mpr
          (List.forall₂_map_right_iff.mpr (hfields.imp fun _ _ hef => hef.1))
      obtain ⟨hlen, hzip⟩ := List.forall₂_iff_zip.mp hfields
      refine .mapping hc.self.1 hc.self.2 hkeys fun p hp => ?_
      have hitem : h.ItemOf p.1.2 (.mapping i) := ⟨p.1, (List.of_mem_zip hp).1, rfl⟩
      exact ih (hc.item hitem) (hfloat.item hitem) (hzip hp).2
    | _ => exact depicts_atom rfl hfloat.self hj

/-! ### What has data -/

theorem keys_length {m : Mapping} {fields : List (String × Json)}
    (hkeys : m.keys = fields.map (.string ·.1)) : m.entries.length = fields.length := by
  simpa [Mapping.keys] using congrArg List.length hkeys

theorem string_keys {m : Mapping} {fields : List (String × Json)}
    (hkeys : m.keys = fields.map (.string ·.1)) : ∀ key ∈ m.keys, key.kind = .string := by
  rw [hkeys]
  exact List.forall_mem_map.mpr fun _ _ => rfl

/-- A value that has data is finite. -/
theorem Depicts.plain (hd : h.Depicts v j) : h.Plain v := by
  induction hd with
  | null | boolean | integer | string => exact .scalar trivial
  | list hi hlen _ ih =>
    refine .list hi fun u hu => ?_
    obtain ⟨p, hp, rfl⟩ := zip_left (Array.length_toList.trans hlen) hu
    exact ih p hp
  | mapping hi hdistinct hkeys _ ih =>
    refine .mapping hi hdistinct (fun e he => ?_) fun e he => ?_
    · have hkind := string_keys hkeys e.1 (List.mem_map_of_mem he)
      cases hk : e.1 with
      | string s => trivial
      | _ => simp [hk, Value.kind] at hkind
    · obtain ⟨p, hp, rfl⟩ := zip_left (keys_length hkeys) he
      exact ih p hp

theorem Depicts.item (hd : h.Depicts v j) (hu : h.ItemOf u v) : ∃ j', h.Depicts u j' := by
  cases hd with
  | list _ hlen hitems =>
    obtain ⟨p, hp, rfl⟩ := zip_left (Array.length_toList.trans hlen) hu
    exact ⟨_, hitems p hp⟩
  | mapping _ _ hkeys hitems =>
    obtain ⟨e, he, rfl⟩ := hu
    obtain ⟨p, hp, rfl⟩ := zip_left (keys_length hkeys) he
    exact ⟨_, hitems p hp⟩
  | _ => exact hu.elim

theorem Depicts.within (hd : h.Depicts v j) (hu : h.Within u v) : ∃ j', h.Depicts u j' := by
  induction hu using ReflTransGen.head_induction_on with
  | refl => exact ⟨j, hd⟩
  | head hitem _ ih =>
    obtain ⟨j', hj'⟩ := ih
    exact hj'.item hitem

theorem Depicts.convertible (hd : h.Depicts v j) : h.Convertible v := by
  refine ⟨plain_acyclic hd.plain, ?_, ?_⟩
  · cases hd <;> simp [Value.kind]
  · rintro i rfl
    cases hd with
    | mapping _ _ hkeys _ => exact string_keys hkeys

/-- A value has data where nothing within it stands against that. -/
theorem datum_iff (hc : h.Throughout h.Carries v)
    (hfloat : h.Throughout (fun u => u.kind ≠ .float) v) :
    (∃ j, datum h v = .ok j) ↔ h.Throughout h.Convertible v := by
  rw [datum_eq]
  constructor
  · rintro ⟨j, hj⟩ u hu
    obtain ⟨j', hj'⟩ := (depicts_of_datum hc hfloat hj).within hu
    exact hj'.convertible
  · exact exists_datum (room_start h) (inside_start h v) hc

/-! ### The data -/

theorem names_nodup {m : Mapping} {fields : List (String × Json)} (hd : m.Distinct)
    (hkeys : m.keys = fields.map (.string ·.1)) : (fields.map Prod.fst).Nodup := by
  rw [Mapping.distinct_iff, hkeys, List.pairwise_map] at hd
  refine List.pairwise_map.mpr (hd.imp fun {f g} hfg heq => ?_)
  have hne : (f.1 == g.1) = false := hfg
  exact absurd heq (by simpa using hne)

/-- The data hold no Float, and the fields of an object have names that differ. -/
theorem Depicts.plain_data (hd : h.Depicts v j) : j.Plain := by
  induction hd with
  | null => exact .null
  | boolean b => exact .boolean b
  | integer n => exact .integer n
  | string s => exact .string s
  | list _ hlen _ ih =>
    refine .array fun j hj => ?_
    obtain ⟨p, hp, rfl⟩ := zip_right (Array.length_toList.trans hlen) hj
    exact ih p hp
  | mapping _ hdistinct hkeys _ ih =>
    refine .object (names_nodup hdistinct hkeys) fun f hf => ?_
    obtain ⟨p, hp, rfl⟩ := zip_right (keys_length hkeys) hf
    exact ih p hp

end Offside.Heap
