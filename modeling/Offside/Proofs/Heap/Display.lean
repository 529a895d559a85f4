import Mathlib.Data.List.Nodup
import Mathlib.Logic.Relation
import Offside.Heap.Display
import Offside.Proofs.Fallible
import Offside.Proofs.Heap.Mirror

/-!
The text of finite data. A value that does not contain itself shows without an ellipsis, and what
is shown of it does not depend on the containers around it.
-/

namespace Offside.Heap

open Relation

variable {h : Heap} {v : Value} {i fuel : Nat} {path : Enclosing}

def ItemOf (h : Heap) (v : Value) : Value → Prop
  | .list i => v ∈ (h.list i).toList
  | .mapping i => ∃ e ∈ (h.mapping i).entries, e.2 = v
  | _ => False

/-- A value that is held, directly or not. -/
def Below (h : Heap) : Value → Value → Prop := TransGen h.ItemOf

theorem scalar_no_item {w : Value} (hv : v.IsScalar) : ¬ h.ItemOf w v := by
  cases v <;> first | exact hv.elim | exact id

theorem below_self_item (hv : h.Below v v) : ∃ w, h.ItemOf w v ∧ h.Below w w := by
  obtain ⟨w, hvw, hwv⟩ := TransGen.tail'_iff.mp hv
  exact ⟨w, hwv, .head' hwv hvw⟩

/-- Finite data do not contain themselves. -/
theorem plain_acyclic (hv : h.Plain v) : ¬ h.Below v v := by
  induction hv with
  | scalar hs =>
    intro hb
    obtain ⟨w, hw, -⟩ := below_self_item hb
    exact scalar_no_item hs hw
  | list _ _ ih =>
    intro hb
    obtain ⟨w, hw, hww⟩ := below_self_item hb
    exact ih w hw hww
  | mapping _ _ _ _ ih =>
    intro hb
    obtain ⟨w, ⟨e, he, rfl⟩, hww⟩ := below_self_item hb
    exact ih e he hww

/-- Enough fuel for every container that is not on the path. -/
structure Room (h : Heap) (fuel : Nat) (path : Enclosing) : Prop where
  lists : path.lists.Nodup ∧ ∀ i ∈ path.lists, i < h.lists.size
  mappings : path.mappings.Nodup ∧ ∀ i ∈ path.mappings, i < h.mappings.size
  fuel : fuel + path.lists.length + path.mappings.length = h.size + 1

/-- Every container of the path holds the value. -/
structure Inside (h : Heap) (path : Enclosing) (v : Value) : Prop where
  lists : ∀ i ∈ path.lists, h.Below v (.list i)
  mappings : ∀ i ∈ path.mappings, h.Below v (.mapping i)

theorem nodup_bounded {l : List Nat} {n : Nat} (hd : l.Nodup) (hb : ∀ i ∈ l, i < n) :
    l.length ≤ n := by
  have hsub : l ⊆ List.range n := fun i hi => List.mem_range.mpr (hb i hi)
  simpa using (hd.subperm hsub).length_le

theorem Room.step_list (hr : h.Room fuel path) (hi : i < h.lists.size) (hn : i ∉ path.lists) :
    ∃ n, fuel = n + 1 ∧ h.Room n { path with lists := i :: path.lists } := by
  have hd : (i :: path.lists).Nodup := List.nodup_cons.mpr ⟨hn, hr.lists.1⟩
  have hb : ∀ j ∈ i :: path.lists, j < h.lists.size := List.forall_mem_cons.mpr ⟨hi, hr.lists.2⟩
  have hl := nodup_bounded hd hb
  have hm := nodup_bounded hr.mappings.1 hr.mappings.2
  have hf := hr.fuel
  rw [List.length_cons] at hl
  unfold Heap.size at hf
  refine ⟨fuel - 1, by omega, ⟨hd, hb⟩, hr.mappings, ?_⟩
  simp only [List.length_cons, Heap.size]
  omega

theorem Room.step_mapping (hr : h.Room fuel path) (hi : i < h.mappings.size)
    (hn : i ∉ path.mappings) :
    ∃ n, fuel = n + 1 ∧ h.Room n { path with mappings := i :: path.mappings } := by
  have hd : (i :: path.mappings).Nodup := List.nodup_cons.mpr ⟨hn, hr.mappings.1⟩
  have hb : ∀ j ∈ i :: path.mappings, j < h.mappings.size :=
    List.forall_mem_cons.mpr ⟨hi, hr.mappings.2⟩
  have hl := nodup_bounded hr.lists.1 hr.lists.2
  have hm := nodup_bounded hd hb
  have hf := hr.fuel
  rw [List.length_cons] at hm
  unfold Heap.size at hf
  refine ⟨fuel - 1, by omega, hr.lists, ⟨hd, hb⟩, ?_⟩
  simp only [List.length_cons, Heap.size]
  omega

theorem Inside.step_list (hp : h.Inside path (.list i)) (hv : h.ItemOf v (.list i)) :
    h.Inside { path with lists := i :: path.lists } v := by
  refine ⟨List.forall_mem_cons.mpr ⟨.single hv, ?_⟩, ?_⟩
  · intro j hj
    exact .head hv (hp.lists j hj)
  · intro j hj
    exact .head hv (hp.mappings j hj)

theorem Inside.step_mapping (hp : h.Inside path (.mapping i)) (hv : h.ItemOf v (.mapping i)) :
    h.Inside { path with mappings := i :: path.mappings } v := by
  refine ⟨?_, List.forall_mem_cons.mpr ⟨.single hv, ?_⟩⟩
  · intro j hj
    exact .head hv (hp.lists j hj)
  · intro j hj
    exact .head hv (hp.mappings j hj)

theorem displayWithin_scalar (hv : v.IsScalar) (fuel : Nat) (path : Enclosing) :
    h.displayWithin fuel path v = v.atomText := by
  cases v <;> first | exact hv.elim | (cases fuel <;> rfl)

theorem display_scalar (hv : v.IsScalar) : h.display v = v.atomText :=
  (display_eq h v).trans (displayWithin_scalar hv _ _)

/-- The text of a value is the same wherever the value is shown. -/
def Steady (h : Heap) (v : Value) : Prop :=
  ∀ fuel path, h.Room fuel path → h.Inside path v → h.displayWithin fuel path v = h.display v

theorem displayWithin_list (hi : i < h.lists.size) (ha : ¬ h.Below (.list i) (.list i))
    (hs : ∀ v ∈ (h.list i).toList, h.Steady v) (hr : h.Room fuel path)
    (hp : h.Inside path (.list i)) :
    h.displayWithin fuel path (.list i) =
      "[" ++ ", ".intercalate ((h.list i).toList.map h.display) ++ "]" := by
  have hn : i ∉ path.lists := fun hm => ha (hp.lists i hm)
  obtain ⟨n, rfl, hr'⟩ := hr.step_list hi hn
  have hitems : (h.list i).toList.map (h.displayWithin n { path with lists := i :: path.lists }) =
      (h.list i).toList.map h.display :=
    List.map_congr_left fun v hv => hs v hv n _ hr' (hp.step_list hv)
  rw [displayWithin, if_neg (by simpa using hn)]
  dsimp only
  rw [hitems]

theorem displayWithin_mapping (hi : i < h.mappings.size) (ha : ¬ h.Below (.mapping i) (.mapping i))
    (hk : ∀ e ∈ (h.mapping i).entries, e.1.IsScalar)
    (hs : ∀ e ∈ (h.mapping i).entries, h.Steady e.2) (hr : h.Room fuel path)
    (hp : h.Inside path (.mapping i)) :
    h.displayWithin fuel path (.mapping i) =
      "\x7b" ++ ", ".intercalate ((h.mapping i).entries.map fun e =>
        h.display e.1 ++ ": " ++ h.display e.2) ++ "\x7d" := by
  have hn : i ∉ path.mappings := fun hm => ha (hp.mappings i hm)
  obtain ⟨n, rfl, hr'⟩ := hr.step_mapping hi hn
  have hentries : ((h.mapping i).entries.map fun e =>
      h.displayWithin n { path with mappings := i :: path.mappings } e.1 ++ ": " ++
        h.displayWithin n { path with mappings := i :: path.mappings } e.2) =
      (h.mapping i).entries.map fun e => h.display e.1 ++ ": " ++ h.display e.2 := by
    apply List.map_congr_left
    intro e he
    rw [displayWithin_scalar (hk e he), display_scalar (hk e he),
      hs e he n _ hr' (hp.step_mapping ⟨e, he, rfl⟩)]
  rw [displayWithin, if_neg (by simpa using hn)]
  dsimp only
  rw [hentries]

theorem room_start (h : Heap) : h.Room (h.size + 1) ⟨[], []⟩ :=
  ⟨⟨.nil, by simp⟩, ⟨.nil, by simp⟩, rfl⟩

theorem inside_start (h : Heap) (v : Value) : h.Inside ⟨[], []⟩ v := ⟨by simp, by simp⟩

theorem plain_steady (hv : h.Plain v) : h.Steady v := by
  induction hv with
  | scalar hs =>
    intro fuel path _ _
    rw [displayWithin_scalar hs, display_scalar hs]
  | list hi hp ih =>
    intro fuel path hr hin
    have ha := plain_acyclic (.list hi hp)
    rw [displayWithin_list hi ha ih hr hin, display_eq,
      displayWithin_list hi ha ih (room_start h) (inside_start h _)]
  | mapping hi hd hk hp ih =>
    intro fuel path hr hin
    have ha := plain_acyclic (.mapping hi hd hk hp)
    rw [displayWithin_mapping hi ha hk ih hr hin, display_eq,
      displayWithin_mapping hi ha hk ih (room_start h) (inside_start h _)]

theorem display_list (hi : i < h.lists.size) (hp : ∀ v ∈ (h.list i).toList, h.Plain v) :
    h.display (.list i) = "[" ++ ", ".intercalate ((h.list i).toList.map h.display) ++ "]" :=
  (display_eq h _).trans (displayWithin_list hi (plain_acyclic (.list hi hp))
    (fun v hv => plain_steady (hp v hv)) (room_start h) (inside_start h _))

theorem display_mapping (hi : i < h.mappings.size) (hd : (h.mapping i).Distinct)
    (hk : ∀ e ∈ (h.mapping i).entries, e.1.IsScalar)
    (hp : ∀ e ∈ (h.mapping i).entries, h.Plain e.2) :
    h.display (.mapping i) =
      "\x7b" ++ ", ".intercalate ((h.mapping i).entries.map fun e =>
        h.display e.1 ++ ": " ++ h.display e.2) ++ "\x7d" :=
  (display_eq h _).trans (displayWithin_mapping hi (plain_acyclic (.mapping hi hd hk hp)) hk
    (fun e he => plain_steady (hp e he)) (room_start h) (inside_start h _))

/-- Data are shown in a heap that has grown as they were. -/
theorem display_extends {h' : Heap} (he : h.Extends h') (hv : h.Plain v) :
    h'.display v = h.display v := by
  induction hv with
  | scalar hs => rw [display_scalar hs, display_scalar hs]
  | @list i hi hp ih =>
    obtain ⟨hi', heq⟩ := he.lists i hi
    rw [display_list hi' (by rw [heq]; exact fun v hv => (hp v hv).mono he), display_list hi hp, heq,
      List.map_congr_left ih]
  | @mapping i hi hd hk hp ih =>
    obtain ⟨hi', heq⟩ := he.mappings i hi
    have hentries : ∀ e ∈ (h.mapping i).entries, h'.display e.1 ++ ": " ++ h'.display e.2 =
        h.display e.1 ++ ": " ++ h.display e.2 := by
      intro e hmem
      rw [display_scalar (hk e hmem), display_scalar (hk e hmem), ih e hmem]
    rw [display_mapping hi' (by rwa [heq]) (by rwa [heq])
        (by rw [heq]; exact fun e hmem => (hp e hmem).mono he),
      display_mapping hi hd hk hp, heq, List.map_congr_left hentries]

/-- Entries of the same keys are entries of the same keys, one by one. -/
theorem zipped_key {m n : Mapping} (hkeys : m.keys = n.keys) {p : (Value × Value) × (Value × Value)}
    (hp : p ∈ m.entries.zip n.entries) : p.1.1 = p.2.1 := by
  have hall : List.Forall₂ (fun e f : Value × Value => e.1 = f.1) m.entries n.entries := by
    rwa [← List.forall₂_map_left_iff (R := fun k f => k = Prod.fst f),
      ← List.forall₂_map_right_iff (R := Eq), List.forall₂_eq_eq_eq]
  exact (List.forall₂_iff_zip.mp hall).2 hp

/-- Data are shown as what they mirror. -/
theorem display_mirrors {u : Value} (hm : h.Mirrors u v) (hv : h.Plain v) :
    h.Plain u ∧ h.display u = h.display v := by
  induction hm with
  | scalar hs => exact ⟨hv, rfl⟩
  | @list i j hi hj hsize _ ih =>
    cases hv with
    | scalar hs => exact hs.elim
    | list _ hp =>
      have hlen : (h.list i).toList.length = (h.list j).toList.length := by simpa using hsize
      have hitems : ∀ p ∈ (h.list i).toList.zip (h.list j).toList,
          h.Plain p.1 ∧ h.display p.1 = h.display p.2 :=
        fun p hzip => ih p hzip (hp p.2 (List.of_mem_zip hzip).2)
      have hplain : ∀ u ∈ (h.list i).toList, h.Plain u := by
        intro u hu
        obtain ⟨p, hzip, rfl⟩ := zip_left hlen hu
        exact (hitems p hzip).1
      have htexts : (h.list i).toList.map h.display = (h.list j).toList.map h.display :=
        map_eq_of_forall₂ (List.forall₂_iff_zip.mpr ⟨hlen, fun hzip => (hitems _ hzip).2⟩)
      refine ⟨.list hi hplain, ?_⟩
      rw [display_list hi hplain, display_list hj hp, htexts]
  | @mapping i j hi hj hkeys _ ih =>
    cases hv with
    | scalar hs => exact hs.elim
    | mapping _ hd hk hp =>
      have hlen : (h.mapping i).entries.length = (h.mapping j).entries.length := by
        simpa [Mapping.keys] using congrArg List.length hkeys
      have hentries : ∀ p ∈ (h.mapping i).entries.zip (h.mapping j).entries,
          h.Plain p.1.2 ∧ h.display p.1.2 = h.display p.2.2 :=
        fun p hzip => ih p hzip (hp p.2 (List.of_mem_zip hzip).2)
      have hscalar : ∀ e ∈ (h.mapping i).entries, e.1.IsScalar := by
        intro e he
        obtain ⟨p, hzip, rfl⟩ := zip_left hlen he
        rw [zipped_key hkeys hzip]
        exact hk p.2 (List.of_mem_zip hzip).2
      have hplain : ∀ e ∈ (h.mapping i).entries, h.Plain e.2 := by
        intro e he
        obtain ⟨p, hzip, rfl⟩ := zip_left hlen he
        exact (hentries p hzip).1
      have hdistinct : (h.mapping i).Distinct := Mapping.distinct_of_keys hkeys hd
      have htexts : ((h.mapping i).entries.map fun e => h.display e.1 ++ ": " ++ h.display e.2) =
          (h.mapping j).entries.map fun e => h.display e.1 ++ ": " ++ h.display e.2 := by
        refine map_eq_of_forall₂ (List.forall₂_iff_zip.mpr ⟨hlen, fun {e f} hzip => ?_⟩)
        rw [zipped_key hkeys hzip, (hentries (e, f) hzip).2]
      refine ⟨.mapping hi hdistinct hscalar hplain, ?_⟩
      rw [display_mapping hi hdistinct hscalar hplain, display_mapping hj hd hk hp, htexts]

end Offside.Heap
