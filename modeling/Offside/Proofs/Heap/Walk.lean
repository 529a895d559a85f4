import Offside.Library.Json
import Offside.Proofs.Equality
import Offside.Proofs.Fallible

/-!
Walks over values: comparison, display and conversion to JSON. Each remembers where it has been, and
a heap has finitely many places, so whatever the heap holds, and however its containers hold each
other, none of them stops for lack of its allowance.
-/

namespace Offside.Heap

variable {h : Heap} {equal equal' : Comparison}

theorem lt_of_mem_list {id : Nat} {v : Value} (hv : v ∈ (h.list id).toList) :
    id < h.lists.size := by
  by_contra hid
  simp [list, Array.getElem?_eq_none (Nat.le_of_not_lt hid)] at hv

theorem lt_of_mem_mapping {id : Nat} {e : Value × Value} (he : e ∈ (h.mapping id).entries) :
    id < h.mappings.size := by
  by_contra hid
  simp [mapping, Mapping.empty, Array.getElem?_eq_none (Nat.le_of_not_lt hid)] at he

/-! ### Comparison -/

theorem equalItems_congr (hg : Grows equal) {as bs : List Value} {met : Met}
    (h : ∀ a ∈ as, ∀ b ∈ bs, ∀ met', met.Sub met' → equal a b met' = equal' a b met') :
    equalItems equal as bs met = equalItems equal' as bs met := by
  induction as generalizing bs met with
  | nil => cases bs <;> rfl
  | cons a as ih =>
    cases bs with
    | nil => rfl
    | cons b bs =>
      have hab := h a List.mem_cons_self b List.mem_cons_self met (Met.Sub.refl met)
      have hrest : equalItems equal as bs (equal a b met).2 =
          equalItems equal' as bs (equal a b met).2 := by
        apply ih
        intro x hx y hy met' hsub
        exact h x (List.mem_cons_of_mem a hx) y (List.mem_cons_of_mem b hy) met'
          ((hg a b met).trans hsub)
      rw [equalItems_cons, equalItems_cons, hrest, hab]

theorem equalEntries_congr (hg : Grows equal) {other : Mapping} {entries : List (Value × Value)}
    {met : Met}
    (h : ∀ e ∈ entries, ∀ b, other.get? e.1 = some b → ∀ met', met.Sub met' →
      equal e.2 b met' = equal' e.2 b met') :
    equalEntries equal other entries met = equalEntries equal' other entries met := by
  induction entries generalizing met with
  | nil => rfl
  | cons e rest ih =>
    rw [equalEntries_cons, equalEntries_cons]
    cases hb : other.get? e.1 with
    | none => rfl
    | some b =>
      have hab := h e List.mem_cons_self b hb met (Met.Sub.refl met)
      have hrest : equalEntries equal other rest (equal e.2 b met).2 =
          equalEntries equal' other rest (equal e.2 b met).2 := by
        apply ih
        intro x hx y hy met' hsub
        exact h x (List.mem_cons_of_mem e hx) y hy met' ((hg e.2 b met).trans hsub)
      dsimp only
      rw [hrest, hab]

theorem lt_of_get {id : Nat} {key b : Value} (hb : (h.mapping id).get? key = some b) :
    id < h.mappings.size := by
  obtain ⟨k, hk, -⟩ := Mapping.mem_of_get hb
  exact lt_of_mem_mapping hk

/-- Two allowances above the number of pairs that are left give the same answer. -/
theorem equalWithin_stable {m n : Nat} (a b : Value) {met : Met} (hm : h.unmet met < m)
    (hn : h.unmet met < n) : h.equalWithin m a b met = h.equalWithin n a b met := by
  induction m generalizing n a b met with
  | zero => exact absurd hm (Nat.not_lt_zero _)
  | succ m ih =>
    obtain ⟨n, rfl⟩ : ∃ k, n = k + 1 := ⟨n - 1, by omega⟩
    have hg := equalWithin_grows h m
    refine both_containers_cases (P := fun a b => ∀ met, h.unmet met < m + 1 →
      h.unmet met < n + 1 → h.equalWithin (m + 1) a b met = h.equalWithin (n + 1) a b met)
      ?_ ?_ ?_ a b met hm hn
    · intro i j met hm hn
      rw [equalWithin_list, equalWithin_list]
      split_ifs with hmet hs
      · rfl
      · simp only [List.contains_eq_mem, decide_eq_true_eq, not_or] at hmet
        refine equalItems_congr hg fun a ha b hb met' hsub => ?_
        have hless := unmet_addLists (lt_of_mem_list ha) (lt_of_mem_list hb) hmet.2
        have hlater := unmet_antitone (h := h) hsub
        exact ih a b (by omega) (by omega)
      · rfl
    · intro i j met hm hn
      rw [equalWithin_mapping, equalWithin_mapping]
      split_ifs with hmet hs
      · rfl
      · simp only [List.contains_eq_mem, decide_eq_true_eq, not_or] at hmet
        refine equalEntries_congr hg fun e he b hb met' hsub => ?_
        have hless := unmet_addMappings (lt_of_mem_mapping he) (lt_of_get hb) hmet.2
        have hlater := unmet_antitone (h := h) hsub
        exact ih e.2 b (by omega) (by omega)
      · rfl
    · intro a b hab met _ _
      rw [equalWithin_atom h _ hab, equalWithin_atom h _ hab]

/-! ### Display and conversion -/

/-- Containers of the heap that are not on the path. -/
def offPath (h : Heap) (path : Enclosing) : Nat :=
  ((Finset.range h.lists.size).filter (· ∉ path.lists)).card +
    ((Finset.range h.mappings.size).filter (· ∉ path.mappings)).card

theorem offPath_start (h : Heap) : h.offPath ⟨[], []⟩ = h.size := by
  simp [offPath, Heap.size]

theorem offPath_list {path : Enclosing} {id : Nat} (hid : id < h.lists.size)
    (hp : id ∉ path.lists) :
    h.offPath { path with lists := id :: path.lists } < h.offPath path :=
  Nat.add_lt_add_right (card_filter_lt (fun _ hq hm => hq (List.mem_cons_of_mem _ hm))
    (Finset.mem_range.mpr hid) hp (not_not_intro List.mem_cons_self)) _

theorem offPath_mapping {path : Enclosing} {id : Nat} (hid : id < h.mappings.size)
    (hp : id ∉ path.mappings) :
    h.offPath { path with mappings := id :: path.mappings } < h.offPath path :=
  Nat.add_lt_add_left (card_filter_lt (fun _ hq hm => hq (List.mem_cons_of_mem _ hm))
    (Finset.mem_range.mpr hid) hp (not_not_intro List.mem_cons_self)) _

theorem displayWithin_stable {m n : Nat} {path : Enclosing} (v : Value) (hm : h.offPath path < m)
    (hn : h.offPath path < n) : h.displayWithin m path v = h.displayWithin n path v := by
  induction m generalizing n path v with
  | zero => exact absurd hm (Nat.not_lt_zero _)
  | succ m ih =>
    obtain ⟨n, rfl⟩ : ∃ k, n = k + 1 := ⟨n - 1, by omega⟩
    cases v with
    | list id =>
      unfold displayWithin
      split_ifs with hp
      · rfl
      · have hitems : ∀ v ∈ (h.list id).toList,
            h.displayWithin m { path with lists := id :: path.lists } v =
              h.displayWithin n { path with lists := id :: path.lists } v := by
          intro v hv
          have hless := offPath_list (lt_of_mem_list hv) (by simpa using hp)
          exact ih v (by omega) (by omega)
        dsimp only
        rw [List.map_congr_left hitems]
    | mapping id =>
      unfold displayWithin
      split_ifs with hp
      · rfl
      · have hentries : ∀ e ∈ (h.mapping id).entries,
            h.displayWithin m { path with mappings := id :: path.mappings } e.1 ++ ": " ++
                h.displayWithin m { path with mappings := id :: path.mappings } e.2 =
              h.displayWithin n { path with mappings := id :: path.mappings } e.1 ++ ": " ++
                h.displayWithin n { path with mappings := id :: path.mappings } e.2 := by
          intro e he
          have hless := offPath_mapping (lt_of_mem_mapping he) (by simpa using hp)
          rw [ih e.1 (n := n) (by omega) (by omega), ih e.2 (n := n) (by omega) (by omega)]
        dsimp only
        rw [List.map_congr_left hentries]
    | _ => rfl

open Library.JsonText

theorem datumWithin_stable {m n : Nat} {path : Enclosing} (v : Value) (hm : h.offPath path < m)
    (hn : h.offPath path < n) : datumWithin h m path v = datumWithin h n path v := by
  induction m generalizing n path v with
  | zero => exact absurd hm (Nat.not_lt_zero _)
  | succ m ih =>
    obtain ⟨n, rfl⟩ : ∃ k, n = k + 1 := ⟨n - 1, by omega⟩
    cases v with
    | list id =>
      simp only [datumWithin]
      by_cases hp : path.lists.contains id = true
      · rw [if_pos hp, if_pos hp]
        rfl
      · rw [if_neg hp, if_neg hp]
        refine congrArg (· >>= _) (mapM_congr fun v hv => ?_)
        have hless := offPath_list (lt_of_mem_list hv) (by simpa using hp)
        exact ih v (by omega) (by omega)
    | mapping id =>
      simp only [datumWithin]
      by_cases hp : path.mappings.contains id = true
      · rw [if_pos hp, if_pos hp]
        rfl
      · rw [if_neg hp, if_neg hp]
        refine congrArg (· >>= _) (mapM_congr fun e he => ?_)
        have hless := offPath_mapping (lt_of_mem_mapping he) (by simpa using hp)
        rw [ih e.2 (n := n) (by omega) (by omega)]
    | _ => rfl

/-- Every larger allowance gives the same: the comparison the same answer with the same pairs met,
the text and the JSON text with no container left open. -/
structure WalksEnd (h : Heap) : Prop where
  comparison : ∀ fuel a b, h.comparisonBound ≤ fuel →
    h.equalWithin fuel a b ⟨[], []⟩ = (h.equal a b, (h.equalWithin h.comparisonBound a b ⟨[], []⟩).2)
  display : ∀ fuel v, h.size + 1 ≤ fuel →
    (h.displayThrough fuel v).run ⟨[], []⟩ = (h.display v, ⟨[], []⟩)
  conversion : ∀ fuel v, h.size + 1 ≤ fuel →
    (datumThrough h fuel v).run.run ⟨[], []⟩ = (datum h v, ⟨[], []⟩)

theorem walks_end (h : Heap) : h.WalksEnd := by
  constructor
  · intro fuel a b hf
    have hstart := unmet_start h
    unfold comparisonBound at hf
    have hsame : h.equalWithin fuel a b ⟨[], []⟩ = h.equalWithin h.comparisonBound a b ⟨[], []⟩ :=
      equalWithin_stable a b (by omega) (by unfold comparisonBound; omega)
    exact hsame.trans (Prod.ext rfl rfl)
  · intro fuel v hf
    have hstart := offPath_start h
    rw [displayThrough_eq, display_eq,
      displayWithin_stable (n := h.size + 1) v (by omega) (by omega)]
  · intro fuel v hf
    have hstart := offPath_start h
    rw [datumThrough_eq, datum_eq, datumWithin_stable (n := h.size + 1) v (by omega) (by omega)]

end Offside.Heap
