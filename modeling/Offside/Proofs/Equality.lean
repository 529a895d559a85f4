import Mathlib.Algebra.Order.Group.Nat
import Offside.Proofs.Bisimulation

/-!
The comparison of values, as a search for a bisimulation. It only ever adds pairs of references,
of which a heap has finitely many, so its allowance never runs out; a comparison that succeeds
has met a bisimulation, and bisimilar values are never told apart.
-/

namespace Offside

namespace Met

structure Sub (met met' : Met) : Prop where
  lists : ∀ p ∈ met.lists, p ∈ met'.lists
  mappings : ∀ p ∈ met.mappings, p ∈ met'.mappings

theorem Sub.refl (met : Met) : met.Sub met := ⟨fun _ h => h, fun _ h => h⟩

theorem Sub.trans {a b c : Met} (h : a.Sub b) (k : b.Sub c) : a.Sub c :=
  ⟨fun p hp => k.lists p (h.lists p hp), fun p hp => k.mappings p (h.mappings p hp)⟩

def addLists (met : Met) (i j : Nat) : Met := { met with lists := (i, j) :: met.lists }

def addMappings (met : Met) (i j : Nat) : Met := { met with mappings := (i, j) :: met.mappings }

theorem sub_addLists (met : Met) (i j : Nat) : met.Sub (met.addLists i j) :=
  ⟨fun _ hp => List.mem_cons_of_mem _ hp, fun _ hp => hp⟩

theorem sub_addMappings (met : Met) (i j : Nat) : met.Sub (met.addMappings i j) :=
  ⟨fun _ hp => hp, fun _ hp => List.mem_cons_of_mem _ hp⟩

end Met

private theorem forall₂_and_mem {R : Value → Value → Prop} {P : Value → Prop}
    {as bs : List Value} (h : List.Forall₂ R as bs) (ha : ∀ a ∈ as, P a) (hb : ∀ b ∈ bs, P b) :
    List.Forall₂ (fun a b => P a ∧ P b ∧ R a b) as bs := by
  induction h with
  | nil => exact .nil
  | cons hr _ ih =>
    refine .cons ⟨ha _ List.mem_cons_self, hb _ List.mem_cons_self, hr⟩ (ih ?_ ?_)
    · intro x hx
      exact ha x (List.mem_cons_of_mem _ hx)
    · intro x hx
      exact hb x (List.mem_cons_of_mem _ hx)

namespace Heap

variable {h : Heap} {equal equal' : Comparison}

theorem equalWithin_list (h : Heap) (fuel i j : Nat) (met : Met) :
    h.equalWithin (fuel + 1) (.list i) (.list j) met =
      if i = j ∨ met.lists.contains (i, j) then (true, met)
      else if (h.list i).size = (h.list j).size then
        equalItems (h.equalWithin fuel) (h.list i).toList (h.list j).toList (met.addLists i j)
      else (false, met.addLists i j) := rfl

theorem equalWithin_mapping (h : Heap) (fuel i j : Nat) (met : Met) :
    h.equalWithin (fuel + 1) (.mapping i) (.mapping j) met =
      if i = j ∨ met.mappings.contains (i, j) then (true, met)
      else if (h.mapping i).size = (h.mapping j).size then
        equalEntries (h.equalWithin fuel) (h.mapping j) (h.mapping i).entries
          (met.addMappings i j)
      else (false, met.addMappings i j) := rfl

def BothContainers : Value → Value → Prop
  | .list _, .list _ | .mapping _, .mapping _ => True
  | _, _ => False

theorem equalWithin_atom (h : Heap) (fuel : Nat) {a b : Value} (hab : ¬ BothContainers a b)
    (met : Met) : h.equalWithin (fuel + 1) a b met = (a.identical b, met) := by
  cases a <;> cases b <;> first | rfl | exact (hab trivial).elim

theorem both_containers_cases {P : Value → Value → Prop}
    (lists : ∀ i j, P (.list i) (.list j)) (mappings : ∀ i j, P (.mapping i) (.mapping j))
    (atoms : ∀ a b, ¬ BothContainers a b → P a b) (a b : Value) : P a b := by
  by_cases hab : BothContainers a b
  · cases a <;> cases b <;> first | exact lists _ _ | exact mappings _ _ | exact hab.elim
  · exact atoms a b hab

theorem equalItems_cons (equal : Comparison) (a b : Value) (as bs : List Value) (met : Met) :
    equalItems equal (a :: as) (b :: bs) met =
      if (equal a b met).1 then equalItems equal as bs (equal a b met).2 else equal a b met := by
  rw [equalItems]
  rcases equal a b met with ⟨_ | _, met'⟩ <;> rfl

theorem equalEntries_cons (equal : Comparison) (other : Mapping) (key a : Value)
    (rest : List (Value × Value)) (met : Met) :
    equalEntries equal other ((key, a) :: rest) met =
      match other.get? key with
      | none => (false, met)
      | some b =>
        if (equal a b met).1 then equalEntries equal other rest (equal a b met).2
        else equal a b met := by
  rw [equalEntries]
  cases other.get? key with
  | none => rfl
  | some b =>
    dsimp only
    rcases equal a b met with ⟨_ | _, met'⟩ <;> rfl

/-! ### Pairs met stay met -/

def Grows (equal : Comparison) : Prop := ∀ a b met, Met.Sub met (equal a b met).2

theorem equalItems_grows (hg : Grows equal) (as bs : List Value) (met : Met) :
    met.Sub (equalItems equal as bs met).2 := by
  induction as generalizing bs met with
  | nil => cases bs <;> exact Met.Sub.refl met
  | cons a as ih =>
    cases bs with
    | nil => exact Met.Sub.refl met
    | cons b bs =>
      rw [equalItems_cons]
      split
      · exact (hg a b met).trans (ih bs _)
      · exact hg a b met

theorem equalEntries_grows (hg : Grows equal) (other : Mapping) (entries : List (Value × Value))
    (met : Met) : met.Sub (equalEntries equal other entries met).2 := by
  induction entries generalizing met with
  | nil => exact Met.Sub.refl met
  | cons e rest ih =>
    rw [equalEntries_cons]
    split
    · exact Met.Sub.refl met
    · split
      · exact (hg _ _ met).trans (ih _)
      · exact hg _ _ met

theorem equalWithin_grows (h : Heap) (fuel : Nat) : Grows (h.equalWithin fuel) := by
  induction fuel with
  | zero => exact fun _ _ met => Met.Sub.refl met
  | succ fuel ih =>
    refine both_containers_cases ?_ ?_ ?_
    · intro i j met
      rw [equalWithin_list]
      split_ifs
      · exact Met.Sub.refl met
      · exact (met.sub_addLists i j).trans (equalItems_grows ih _ _ _)
      · exact met.sub_addLists i j
    · intro i j met
      rw [equalWithin_mapping]
      split_ifs
      · exact Met.Sub.refl met
      · exact (met.sub_addMappings i j).trans (equalEntries_grows ih _ _ _)
      · exact met.sub_addMappings i j
    · intro a b hab met
      rw [equalWithin_atom h fuel hab]
      exact Met.Sub.refl met

/-! ### The allowance suffices -/

/-- Pairs of objects of the heap that have not been met. -/
def unmet (h : Heap) (met : Met) : Nat :=
  ((Finset.range h.lists.size ×ˢ Finset.range h.lists.size).filter (· ∉ met.lists)).card +
    ((Finset.range h.mappings.size ×ˢ Finset.range h.mappings.size).filter
      (· ∉ met.mappings)).card

theorem unmet_start (h : Heap) : h.unmet ⟨[], []⟩ = h.lists.size ^ 2 + h.mappings.size ^ 2 := by
  simp [unmet, Finset.card_product, pow_two]

theorem unmet_antitone {met met' : Met} (hs : met.Sub met') : h.unmet met' ≤ h.unmet met := by
  apply Nat.add_le_add
  · exact Finset.card_le_card
      (Finset.monotone_filter_right _ fun p _ hp hm => hp (hs.lists p hm))
  · exact Finset.card_le_card
      (Finset.monotone_filter_right _ fun p _ hp hm => hp (hs.mappings p hm))

/-- A narrower filter that loses an element keeps fewer. -/
theorem card_filter_lt {α : Type} {s : Finset α} {p q : α → Prop} [DecidablePred p]
    [DecidablePred q] (hqp : ∀ a, q a → p a) {a : α} (ha : a ∈ s) (hp : p a) (hq : ¬ q a) :
    (s.filter q).card < (s.filter p).card := by
  apply Finset.card_lt_card
  refine Finset.ssubset_iff_subset_ne.mpr ⟨?_, ?_⟩
  · exact Finset.monotone_filter_right _ fun a _ => hqp a
  · intro he
    have hm : a ∈ s.filter p := Finset.mem_filter.mpr ⟨ha, hp⟩
    rw [← he] at hm
    exact hq (Finset.mem_filter.mp hm).2

theorem card_filter_cons_lt {s : Finset (Nat × Nat)} {p : Nat × Nat} {l : List (Nat × Nat)}
    (hp : p ∈ s) (hl : p ∉ l) :
    (s.filter (· ∉ p :: l)).card < (s.filter (· ∉ l)).card :=
  card_filter_lt (fun _ hq hm => hq (List.mem_cons_of_mem _ hm)) hp hl
    (not_not_intro List.mem_cons_self)

theorem unmet_addLists {met : Met} {i j : Nat} (hi : i < h.lists.size) (hj : j < h.lists.size)
    (hm : (i, j) ∉ met.lists) : h.unmet (met.addLists i j) < h.unmet met := by
  have hp : (i, j) ∈ Finset.range h.lists.size ×ˢ Finset.range h.lists.size := by
    simp [hi, hj]
  exact Nat.add_lt_add_right (card_filter_cons_lt hp hm) _

theorem unmet_addMappings {met : Met} {i j : Nat} (hi : i < h.mappings.size)
    (hj : j < h.mappings.size) (hm : (i, j) ∉ met.mappings) :
    h.unmet (met.addMappings i j) < h.unmet met := by
  have hp : (i, j) ∈ Finset.range h.mappings.size ×ˢ Finset.range h.mappings.size := by
    simp [hi, hj]
  exact Nat.add_lt_add_left (card_filter_cons_lt hp hm) _

/-- Two comparisons that answer alike on values of the heap while few pairs are unmet. -/
def Alike (h : Heap) (bound : Nat) (equal equal' : Comparison) : Prop :=
  ∀ a b met, h.Holds a → h.Holds b → h.unmet met < bound → equal a b met = equal' a b met

theorem equalItems_alike {bound : Nat} (hg : Grows equal) (ha : h.Alike bound equal equal')
    {as bs : List Value} (has : ∀ a ∈ as, h.Holds a) (hbs : ∀ b ∈ bs, h.Holds b) {met : Met}
    (hm : h.unmet met < bound) : equalItems equal as bs met = equalItems equal' as bs met := by
  induction as generalizing bs met with
  | nil => cases bs <;> rfl
  | cons a as ih =>
    cases bs with
    | nil => rfl
    | cons b bs =>
      have hab := ha a b met (has a List.mem_cons_self) (hbs b List.mem_cons_self) hm
      have hm' := lt_of_le_of_lt (unmet_antitone (hg a b met)) hm
      have hr := ih (fun x hx => has x (List.mem_cons_of_mem a hx))
        (fun x hx => hbs x (List.mem_cons_of_mem b hx)) hm'
      rw [equalItems_cons, equalItems_cons, hr, hab]

theorem equalEntries_alike {bound j : Nat} (hc : h.Closed) (hg : Grows equal)
    (ha : h.Alike bound equal equal') {entries : List (Value × Value)}
    (hes : ∀ e ∈ entries, h.Holds e.2) {met : Met} (hm : h.unmet met < bound) :
    equalEntries equal (h.mapping j) entries met =
      equalEntries equal' (h.mapping j) entries met := by
  induction entries generalizing met with
  | nil => rfl
  | cons e rest ih =>
    rw [equalEntries_cons, equalEntries_cons]
    cases hb : (h.mapping j).get? e.1 with
    | none => rfl
    | some b =>
      have hab := ha e.2 b met (hes e List.mem_cons_self) (hc.value hb) hm
      have hm' := lt_of_le_of_lt (unmet_antitone (hg e.2 b met)) hm
      have hr := ih (fun x hx => hes x (List.mem_cons_of_mem e hx)) hm'
      dsimp only
      rw [hr, hab]

theorem equalWithin_succ (hc : h.Closed) (fuel : Nat) :
    h.Alike fuel (h.equalWithin fuel) (h.equalWithin (fuel + 1)) := by
  induction fuel with
  | zero =>
    intro a b met _ _ hm
    exact absurd hm (Nat.not_lt_zero _)
  | succ fuel ih =>
    have hg := equalWithin_grows h fuel
    refine both_containers_cases ?_ ?_ ?_
    · intro i j met hi hj hm
      rw [equalWithin_list, equalWithin_list]
      split_ifs with hmet hs
      · rfl
      · simp only [List.contains_eq_mem, decide_eq_true_eq, not_or] at hmet
        have hm' := unmet_addLists hi.2 hj.2 hmet.2
        exact equalItems_alike hg ih (hc.items i) (hc.items j) (by omega)
      · rfl
    · intro i j met hi hj hm
      rw [equalWithin_mapping, equalWithin_mapping]
      split_ifs with hmet hs
      · rfl
      · simp only [List.contains_eq_mem, decide_eq_true_eq, not_or] at hmet
        have hm' := unmet_addMappings hi.2 hj.2 hmet.2
        exact equalEntries_alike hc hg ih (fun e he => (hc.entries i e he).2.2) (by omega)
      · rfl
    · intro a b hab met _ _ _
      rw [equalWithin_atom h _ hab, equalWithin_atom h _ hab]

/-- Pairs of references at the start of a comparison, and one more for what they hold. -/
def comparisonBound (h : Heap) : Nat := h.lists.size ^ 2 + h.mappings.size ^ 2 + 1

/-- No comparison of values of the heap ends for lack of an allowance. -/
theorem comparison_terminates (hc : h.Closed) {a b : Value} (ha : h.Holds a) (hb : h.Holds b)
    {fuel : Nat} (hf : h.comparisonBound ≤ fuel) :
    h.equalWithin fuel a b ⟨[], []⟩ = h.equalWithin h.comparisonBound a b ⟨[], []⟩ := by
  induction fuel, hf using Nat.le_induction with
  | base => rfl
  | succ fuel hf ih =>
    rw [← ih]
    refine (equalWithin_succ hc fuel a b _ ha hb ?_).symm
    rw [unmet_start]
    unfold comparisonBound at hf
    omega

/-! ### A comparison that succeeds has met a bisimulation -/

def Vouched (met : Met) : Value → Value → Prop
  | .list i, .list j => i = j ∨ (i, j) ∈ met.lists
  | .mapping i, .mapping j => i = j ∨ (i, j) ∈ met.mappings
  | a, b => a.SameObject b

theorem vouched_atom {met : Met} {a b : Value} (hab : ¬ BothContainers a b) :
    Vouched met a b ↔ a.SameObject b := by
  cases a <;> cases b <;> first | rfl | exact (hab trivial).elim

theorem agree_atoms {R : Value → Value → Prop} {a b : Value} (hab : ¬ BothContainers a b) :
    h.Agree R a b ↔ a.SameObject b := by
  cases a <;> cases b <;> first | rfl | exact (hab trivial).elim

theorem vouched_refl {met : Met} {a : Value} (ha : a.Regular) : Vouched met a a := by
  cases a <;> first | exact Or.inl rfl | exact Value.sameObject_refl ha

theorem Vouched.mono {met met' : Met} (hs : met.Sub met') {a b : Value} (hab : Vouched met a b) :
    Vouched met' a b := by
  by_cases hb : BothContainers a b
  · cases a <;> cases b <;> first | exact hb.elim | skip
    · exact hab.imp_right (hs.lists _)
    · exact hab.imp_right (hs.mappings _)
  · exact (vouched_atom hb).mpr ((vouched_atom hb).mp hab)

/-- The pairs met between two moments agree in what has been met by the later one. -/
structure Explored (h : Heap) (met met' : Met) : Prop where
  sub : met.Sub met'
  lists : ∀ p ∈ met'.lists, p ∈ met.lists ∨ h.Agree (Vouched met') (.list p.1) (.list p.2)
  mappings : ∀ p ∈ met'.mappings,
    p ∈ met.mappings ∨ h.Agree (Vouched met') (.mapping p.1) (.mapping p.2)

theorem Explored.refl (met : Met) : h.Explored met met :=
  ⟨Met.Sub.refl met, fun _ hp => Or.inl hp, fun _ hp => Or.inl hp⟩

theorem Explored.trans {a b c : Met} (hab : h.Explored a b) (hbc : h.Explored b c) :
    h.Explored a c := by
  have later : ∀ x y, h.Agree (Vouched b) x y → h.Agree (Vouched c) x y :=
    fun x y hxy => hxy.mono fun _ _ hv => hv.mono hbc.sub
  refine ⟨hab.sub.trans hbc.sub, ?_, ?_⟩
  · intro p hp
    rcases hbc.lists p hp with hp | hp
    · exact (hab.lists p hp).imp_right (later _ _)
    · exact Or.inr hp
  · intro p hp
    rcases hbc.mappings p hp with hp | hp
    · exact (hab.mappings p hp).imp_right (later _ _)
    · exact Or.inr hp

theorem explored_addLists {met met' : Met} {i j : Nat} (he : h.Explored (met.addLists i j) met')
    (ha : h.Agree (Vouched met') (.list i) (.list j)) : h.Explored met met' := by
  refine ⟨(met.sub_addLists i j).trans he.sub, ?_, he.mappings⟩
  intro p hp
  rcases he.lists p hp with hp | hp
  · rcases List.mem_cons.mp hp with rfl | hp
    · exact Or.inr ha
    · exact Or.inl hp
  · exact Or.inr hp

theorem explored_addMappings {met met' : Met} {i j : Nat}
    (he : h.Explored (met.addMappings i j) met')
    (ha : h.Agree (Vouched met') (.mapping i) (.mapping j)) : h.Explored met met' := by
  refine ⟨(met.sub_addMappings i j).trans he.sub, he.lists, ?_⟩
  intro p hp
  rcases he.mappings p hp with hp | hp
  · rcases List.mem_cons.mp hp with rfl | hp
    · exact Or.inr ha
    · exact Or.inl hp
  · exact Or.inr hp

/-- What a comparison of values of the heap establishes when it succeeds. -/
def Sound (h : Heap) (bound : Nat) (equal : Comparison) : Prop :=
  ∀ a b met, h.Holds a → h.Holds b → h.unmet met < bound → (equal a b met).1 = true →
    h.Explored met (equal a b met).2 ∧ Vouched (equal a b met).2 a b

theorem equalItems_sound {bound : Nat} (hg : Grows equal) (hs : h.Sound bound equal)
    {as bs : List Value} (hl : as.length = bs.length) (has : ∀ a ∈ as, h.Holds a)
    (hbs : ∀ b ∈ bs, h.Holds b) {met : Met} (hm : h.unmet met < bound)
    (ht : (equalItems equal as bs met).1 = true) :
    h.Explored met (equalItems equal as bs met).2 ∧
      List.Forall₂ (Vouched (equalItems equal as bs met).2) as bs := by
  induction as generalizing bs met with
  | nil =>
    rw [List.length_nil] at hl
    rw [List.eq_nil_of_length_eq_zero hl.symm]
    exact ⟨Explored.refl met, .nil⟩
  | cons a as ih =>
    cases bs with
    | nil => cases hl
    | cons b bs =>
      rw [equalItems_cons] at ht ⊢
      by_cases hab : (equal a b met).1 = true
      · rw [if_pos hab] at ht ⊢
        obtain ⟨he, hv⟩ :=
          hs a b met (has a List.mem_cons_self) (hbs b List.mem_cons_self) hm hab
        have hm' := lt_of_le_of_lt (unmet_antitone (hg a b met)) hm
        obtain ⟨he', hv'⟩ := ih (Nat.succ.inj hl) (fun x hx => has x (List.mem_cons_of_mem a hx))
          (fun x hx => hbs x (List.mem_cons_of_mem b hx)) hm' ht
        exact ⟨he.trans he', .cons (hv.mono he'.sub) hv'⟩
      · rw [if_neg hab] at ht
        exact absurd ht hab

theorem equalEntries_sound {bound j : Nat} (hc : h.Closed) (hg : Grows equal)
    (hs : h.Sound bound equal) {entries : List (Value × Value)}
    (hes : ∀ e ∈ entries, h.Holds e.2) {met : Met} (hm : h.unmet met < bound)
    (ht : (equalEntries equal (h.mapping j) entries met).1 = true) :
    h.Explored met (equalEntries equal (h.mapping j) entries met).2 ∧
      ∀ e ∈ entries, ∃ b, (h.mapping j).get? e.1 = some b ∧
        Vouched (equalEntries equal (h.mapping j) entries met).2 e.2 b := by
  induction entries generalizing met with
  | nil => exact ⟨Explored.refl met, nofun⟩
  | cons e rest ih =>
    rw [equalEntries_cons] at ht ⊢
    cases hb : (h.mapping j).get? e.1 with
    | none =>
      rw [hb] at ht
      cases ht
    | some b =>
      rw [hb] at ht
      dsimp only at ht ⊢
      by_cases hab : (equal e.2 b met).1 = true
      · rw [if_pos hab] at ht ⊢
        obtain ⟨he, hv⟩ := hs e.2 b met (hes e List.mem_cons_self) (hc.value hb) hm hab
        have hm' := lt_of_le_of_lt (unmet_antitone (hg e.2 b met)) hm
        obtain ⟨he', hv'⟩ := ih (fun x hx => hes x (List.mem_cons_of_mem e hx)) hm' ht
        refine ⟨he.trans he', ?_⟩
        intro f hf
        rcases List.mem_cons.mp hf with rfl | hf
        · exact ⟨b, hb, hv.mono he'.sub⟩
        · exact hv' f hf
      · rw [if_neg hab] at ht
        exact absurd ht hab

theorem agree_mapping_of_entries {R : Value → Value → Prop} (hc : h.Closed) {i j : Nat}
    (hs : (h.mapping i).size = (h.mapping j).size)
    (he : ∀ e ∈ (h.mapping i).entries, ∃ b, (h.mapping j).get? e.1 = some b ∧ R e.2 b) :
    h.Agree R (.mapping i) (.mapping j) := by
  refine ⟨hs, ?_⟩
  intro key
  cases hi : (h.mapping i).get? key with
  | some v =>
    obtain ⟨k, hk, hkey⟩ := Mapping.mem_of_get hi
    obtain ⟨b, hb, hr⟩ := he _ hk
    rw [Mapping.get_congr hkey, hb]
    exact .some hr
  | none =>
    -- every key of the second occurs in the first, as there are equally many
    have hx : ∀ k ∈ (h.mapping i).keys, ∃ l ∈ (h.mapping j).keys, k.sameKey l = true := by
      intro k hk
      obtain ⟨e, hm, rfl⟩ := List.mem_map.mp hk
      obtain ⟨b, hb, _⟩ := he e hm
      obtain ⟨l, hl, hkl⟩ := Mapping.mem_of_get hb
      exact ⟨l, List.mem_map.mpr ⟨_, hl, rfl⟩, hkl⟩
    have hy := Mapping.keys_exhaust (List.pairwise_map.mpr (hc.distinct i)) hx
      (by simpa [Mapping.keys, Mapping.size] using hs.symm)
    have hj : (h.mapping j).get? key = none := by
      refine Mapping.get_none_iff.mpr ?_
      intro e hm
      obtain ⟨x, hx, hxe⟩ := hy e.1 (List.mem_map.mpr ⟨e, hm, rfl⟩)
      obtain ⟨f, hf, rfl⟩ := List.mem_map.mp hx
      rw [Value.sameKey_comm, ← Value.sameKey_congr hxe, Value.sameKey_comm]
      exact Mapping.get_none_iff.mp hi f hf
    rw [hj]
    exact .none

theorem equalWithin_sound (hc : h.Closed) (fuel : Nat) : h.Sound fuel (h.equalWithin fuel) := by
  induction fuel with
  | zero =>
    intro a b met _ _ hm
    exact absurd hm (Nat.not_lt_zero _)
  | succ fuel ih =>
    have hg := equalWithin_grows h fuel
    refine both_containers_cases ?_ ?_ ?_
    · intro i j met hi hj hm
      rw [equalWithin_list]
      split_ifs with hmet hs
      · intro _
        refine ⟨Explored.refl met, hmet.imp_right ?_⟩
        intro hp
        simpa using hp
      · intro ht
        simp only [List.contains_eq_mem, decide_eq_true_eq, not_or] at hmet
        have hm' := unmet_addLists hi.2 hj.2 hmet.2
        obtain ⟨he, hv⟩ := equalItems_sound hg ih (by simpa using hs) (hc.items i) (hc.items j)
          (by omega) ht
        exact ⟨explored_addLists he hv, Or.inr (he.sub.lists _ List.mem_cons_self)⟩
      · exact nofun
    · intro i j met hi hj hm
      rw [equalWithin_mapping]
      split_ifs with hmet hs
      · intro _
        refine ⟨Explored.refl met, hmet.imp_right ?_⟩
        intro hp
        simpa using hp
      · intro ht
        simp only [List.contains_eq_mem, decide_eq_true_eq, not_or] at hmet
        have hm' := unmet_addMappings hi.2 hj.2 hmet.2
        obtain ⟨he, hv⟩ := equalEntries_sound hc hg ih (fun e he => (hc.entries i e he).2.2)
          (by omega) ht
        exact ⟨explored_addMappings he (agree_mapping_of_entries hc hs hv),
          Or.inr (he.sub.mappings _ List.mem_cons_self)⟩
      · exact nofun
    · intro a b hab met ha hb _
      rw [equalWithin_atom h _ hab]
      intro ht
      exact ⟨Explored.refl met, (vouched_atom hab).mpr ((Value.identical_iff ha.1).mp ht)⟩

theorem bisimilar_of_equal (hc : h.Closed) {a b : Value} (ha : h.Holds a) (hb : h.Holds b)
    (he : h.equal a b = true) : h.Bisimilar a b := by
  have hm : h.unmet ⟨[], []⟩ < h.comparisonBound := by
    rw [unmet_start]
    exact Nat.lt_succ_self _
  obtain ⟨hx, hv⟩ := equalWithin_sound hc _ a b _ ha hb hm he
  generalize (h.equalWithin h.comparisonBound a b ⟨[], []⟩).2 = met at hx hv
  refine ⟨fun x y => h.Holds x ∧ h.Holds y ∧ Vouched met x y, ?_, ha, hb, hv⟩
  refine both_containers_cases ?_ ?_ ?_
  · rintro i j ⟨hi, hj, hv⟩
    have hl : h.Agree (Vouched met) (.list i) (.list j) := by
      rcases hv with rfl | hp
      · exact agree_refl hc (fun v hv => vouched_refl hv.1) hi
      · exact (hx.lists _ hp).resolve_left List.not_mem_nil
    exact forall₂_and_mem hl (hc.items i) (hc.items j)
  · rintro i j ⟨hi, hj, hv⟩
    have hl : h.Agree (Vouched met) (.mapping i) (.mapping j) := by
      rcases hv with rfl | hp
      · exact agree_refl hc (fun v hv => vouched_refl hv.1) hi
      · exact (hx.mappings _ hp).resolve_left List.not_mem_nil
    refine ⟨hl.1, ?_⟩
    intro key
    have hk := hl.2 key
    cases hi : (h.mapping i).get? key <;> cases hj : (h.mapping j).get? key <;>
      rw [hi, hj] at hk
    · exact .none
    · cases hk
    · cases hk
    · cases hk with
      | some hr => exact .some ⟨hc.value hi, hc.value hj, hr⟩
  · rintro a b hab ⟨_, _, hv⟩
    exact (agree_atoms hab).mpr ((vouched_atom hab).mp hv)

/-! ### Bisimilar values are never told apart -/

theorem equalItems_complete {R : Value → Value → Prop}
    (he : ∀ a b met, R a b → (equal a b met).1 = true) {as bs : List Value}
    (hl : List.Forall₂ R as bs) (met : Met) : (equalItems equal as bs met).1 = true := by
  induction hl generalizing met with
  | nil => rfl
  | cons hr _ ih =>
    rw [equalItems_cons, if_pos (he _ _ met hr)]
    exact ih _

theorem equalEntries_complete {R : Value → Value → Prop}
    (he : ∀ a b met, R a b → (equal a b met).1 = true) {other : Mapping}
    {entries : List (Value × Value)}
    (hm : ∀ e ∈ entries, ∃ b, other.get? e.1 = some b ∧ R e.2 b) (met : Met) :
    (equalEntries equal other entries met).1 = true := by
  induction entries generalizing met with
  | nil => rfl
  | cons e rest ih =>
    obtain ⟨b, hb, hr⟩ := hm e List.mem_cons_self
    rw [equalEntries_cons, hb]
    dsimp only
    rw [if_pos (he _ _ met hr)]
    exact ih (fun f hf => hm f (List.mem_cons_of_mem e hf)) _

theorem equalWithin_complete (hc : h.Closed) (fuel : Nat) :
    ∀ a b met, h.Holds a ∧ h.Bisimilar a b → (h.equalWithin fuel a b met).1 = true := by
  induction fuel with
  | zero => exact fun _ _ _ _ => rfl
  | succ fuel ih =>
    refine both_containers_cases ?_ ?_ ?_
    · rintro i j met ⟨_, hb⟩
      obtain ⟨k, hj, hl⟩ := agree_list (bisimilar_agree hb)
      obtain rfl := Value.list.inj hj
      rw [equalWithin_list]
      split_ifs with _ hs
      · rfl
      · have hl' := forall₂_and_mem hl (hc.items i) (hc.items j)
        exact equalItems_complete ih (hl'.imp fun _ _ hr => ⟨hr.1, hr.2.2⟩) _
      · exact absurd (by simpa using hl.length_eq) hs
    · rintro i j met ⟨_, hb⟩
      obtain ⟨k, hj, hs, hm⟩ := agree_mapping (bisimilar_agree hb)
      obtain rfl := Value.mapping.inj hj
      rw [equalWithin_mapping]
      split_ifs
      · rfl
      · refine equalEntries_complete ih ?_ _
        intro e he
        have hi := Mapping.get_of_mem (hc.distinct i) he (hc.sameKey he)
        have hk := hm e.1
        rw [hi] at hk
        generalize (h.mapping j).get? e.1 = b at hk ⊢
        cases hk with
        | some hr => exact ⟨_, rfl, (hc.entries i e he).2.2, hr⟩
    · rintro a b hab met ⟨ha, hb⟩
      rw [equalWithin_atom h _ hab]
      exact (Value.identical_iff ha.1).mpr ((agree_atoms hab).mp (bisimilar_agree hb))

theorem equal_of_bisimilar (hc : h.Closed) {a b : Value} (ha : h.Holds a)
    (hb : h.Bisimilar a b) : h.equal a b = true :=
  equalWithin_complete hc _ a b _ ⟨ha, hb⟩

theorem equal_iff_bisimilar (hc : h.Closed) {a b : Value} (ha : h.Holds a) (hb : h.Holds b) :
    h.equal a b = true ↔ h.Bisimilar a b :=
  ⟨bisimilar_of_equal hc ha hb, equal_of_bisimilar hc ha⟩

/-- A comparison has one outcome for every allowance from its bound on, and the outcome is
bisimilarity; so equality is an equivalence on the values of a heap. -/
theorem equality_decides_bisimilarity {h : Heap} (hc : h.Closed) :
    (∀ a b, h.Holds a → h.Holds b →
      (∃ met, ∀ fuel, h.comparisonBound ≤ fuel →
        h.equalWithin fuel a b ⟨[], []⟩ = (h.equal a b, met)) ∧
      (h.equal a b = true ↔ h.Bisimilar a b)) ∧
    Equivalence fun a b : { v // h.Holds v } => h.equal a b = true := by
  refine ⟨fun a b ha hb => ⟨⟨_, fun fuel hf => comparison_terminates hc ha hb hf⟩,
    equal_iff_bisimilar hc ha hb⟩, ?_, ?_, ?_⟩
  · intro a
    exact equal_of_bisimilar hc a.2 (bisimilar_refl hc a.2)
  · intro a b hab
    exact equal_of_bisimilar hc b.2 (bisimilar_symm (bisimilar_of_equal hc a.2 b.2 hab))
  · intro a b c hab hbc
    have h₁ := bisimilar_of_equal hc a.2 b.2 hab
    have h₂ := bisimilar_of_equal hc b.2 c.2 hbc
    exact equal_of_bisimilar hc a.2 (bisimilar_trans h₁ h₂)

/-- A List that holds itself, and two Lists that hold each other next to a Mapping. -/
def loops : Heap where
  lists := #[#[.list 0, .mapping 0], #[.list 2, .mapping 0], #[.list 1, .mapping 1]]
  mappings := #[⟨[(.integer 1, .list 0)]⟩, ⟨[(.integer 1, .list 2)]⟩]

theorem loops_closed : loops.Closed := by
  refine ⟨?_, ?_, ?_⟩
  · intro i v hv
    match i with
    | 0 | 1 | 2 =>
      simp [loops, list] at hv
      rcases hv with rfl | rfl <;> exact ⟨trivial, by decide⟩
    | i + 3 => simp [loops, list] at hv
  · intro i e he
    match i with
    | 0 | 1 =>
      simp [loops, mapping] at he
      subst he
      exact ⟨rfl, ⟨trivial, trivial⟩, trivial, by decide⟩
    | i + 2 => simp [loops, mapping, Mapping.empty] at he
  · intro i
    match i with
    | 0 | 1 => exact List.pairwise_singleton _ _
    | i + 2 => exact List.Pairwise.nil

theorem unrolled_loops_bisimilar :
    loops.Closed ∧ loops.Holds (.list 0) ∧ loops.Holds (.list 1) ∧
      loops.Bisimilar (.list 0) (.list 1) := by
  have h₀ : loops.Holds (.list 0) := ⟨trivial, by decide⟩
  have h₁ : loops.Holds (.list 1) := ⟨trivial, by decide⟩
  refine ⟨loops_closed, h₀, h₁, ?_⟩
  exact (((equality_decides_bisimilarity loops_closed).1 _ _ h₀ h₁).2).mp (by decide)

end Heap

end Offside
