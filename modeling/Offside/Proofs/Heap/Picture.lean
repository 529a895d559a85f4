import Offside.Proofs.Heap.Walk

/-!
What the text of a value shows. A container is drawn with all that it holds, but for an ellipsis in
its brackets where it stands within itself; sharing alone is never cut. So a value above no cycle is
drawn as the whole tree that it unfolds to.
-/

namespace Offside.Heap

open Relation

variable {h : Heap} {u v : Value} {i fuel : Nat} {path : Enclosing}

/-- What is seen of a value: a container is cut short, or there with its contents. -/
inductive Picture where
  | atom (v : Value)
  | listAgain
  | mappingAgain
  | list (items : List Picture)
  | mapping (entries : List (Picture × Picture))

def Picture.text : Picture → String
  | .atom v => v.atomText
  | .listAgain => "[...]"
  | .mappingAgain => "\x7b...\x7d"
  | .list items => "[" ++ ", ".intercalate (items.map fun p => p.text) ++ "]"
  | .mapping entries =>
    "\x7b" ++ ", ".intercalate (entries.map fun e => e.1.text ++ ": " ++ e.2.text) ++ "\x7d"
decreasing_by
  all_goals simp_wf
  · have := List.sizeOf_lt_of_mem ‹_›
    omega
  all_goals
    have := List.sizeOf_lt_of_mem ‹e ∈ entries›
    cases e
    simp only [Prod.mk.sizeOf_spec] at this ⊢
    omega

/-- The picture of a value with these containers around it. One of them is cut short, and no
other. -/
inductive Draws (h : Heap) : Enclosing → Value → Picture → Prop where
  | atom {path : Enclosing} {v : Value} : v.isContainer = false → Draws h path v (.atom v)
  | listAgain {path : Enclosing} {i : Nat} : i ∈ path.lists → Draws h path (.list i) .listAgain
  | mappingAgain {path : Enclosing} {i : Nat} : i ∈ path.mappings →
      Draws h path (.mapping i) .mappingAgain
  | list {path : Enclosing} {i : Nat} {items : List Picture} : i ∉ path.lists →
      (h.list i).toList.length = items.length →
      (∀ p ∈ (h.list i).toList.zip items,
        Draws h { path with lists := i :: path.lists } p.1 p.2) →
      Draws h path (.list i) (.list items)
  | mapping {path : Enclosing} {i : Nat} {entries : List (Picture × Picture)} :
      i ∉ path.mappings → (h.mapping i).entries.length = entries.length →
      (∀ p ∈ (h.mapping i).entries.zip entries,
        Draws h { path with mappings := i :: path.mappings } p.1.1 p.2.1) →
      (∀ p ∈ (h.mapping i).entries.zip entries,
        Draws h { path with mappings := i :: path.mappings } p.1.2 p.2.2) →
      Draws h path (.mapping i) (.mapping entries)

/-- The whole tree of a value, with nothing cut short. -/
inductive Unfolds (h : Heap) : Value → Picture → Prop where
  | atom {v : Value} : v.isContainer = false → Unfolds h v (.atom v)
  | list {i : Nat} {items : List Picture} : (h.list i).toList.length = items.length →
      (∀ p ∈ (h.list i).toList.zip items, Unfolds h p.1 p.2) → Unfolds h (.list i) (.list items)
  | mapping {i : Nat} {entries : List (Picture × Picture)} :
      (h.mapping i).entries.length = entries.length →
      (∀ p ∈ (h.mapping i).entries.zip entries, Unfolds h p.1.1 p.2.1) →
      (∀ p ∈ (h.mapping i).entries.zip entries, Unfolds h p.1.2 p.2.2) →
      Unfolds h (.mapping i) (.mapping entries)

/-- A value directly in a container: an item of a List, or a key or a value of a Mapping. -/
def PartOf (h : Heap) (v : Value) : Value → Prop
  | .list i => v ∈ (h.list i).toList
  | .mapping i => ∃ e ∈ (h.mapping i).entries, v = e.1 ∨ v = e.2
  | _ => False

/-- Nothing that a value leads to is a part of itself, directly or not. -/
def Acyclic (h : Heap) (v : Value) : Prop :=
  ∀ u, ReflTransGen h.PartOf u v → ¬ TransGen h.PartOf u u

/-! ### Every value has one picture -/

theorem exists_draws (v : Value) (hn : h.offPath path < fuel) : ∃ p, h.Draws path v p := by
  induction fuel generalizing path v with
  | zero => exact absurd hn (Nat.not_lt_zero _)
  | succ n ih =>
    cases v with
    | list i =>
      by_cases hi : i ∈ path.lists
      · exact ⟨_, .listAgain hi⟩
      · have hitems : ∀ u ∈ (h.list i).toList,
            ∃ p, h.Draws { path with lists := i :: path.lists } u p := by
          intro u hu
          have hless := offPath_list (lt_of_mem_list hu) hi
          exact ih u (Nat.lt_of_lt_of_le hless (Nat.le_of_lt_succ hn))
        obtain ⟨items, hitems⟩ := forall₂_exists hitems
        obtain ⟨hlen, hzip⟩ := List.forall₂_iff_zip.mp hitems
        exact ⟨_, .list hi hlen fun p hp => hzip hp⟩
    | mapping i =>
      by_cases hi : i ∈ path.mappings
      · exact ⟨_, .mappingAgain hi⟩
      · have hentries : ∀ e ∈ (h.mapping i).entries, ∃ p : Picture × Picture,
            h.Draws { path with mappings := i :: path.mappings } e.1 p.1 ∧
              h.Draws { path with mappings := i :: path.mappings } e.2 p.2 := by
          intro e he
          have hless := offPath_mapping (lt_of_mem_mapping he) hi
          obtain ⟨key, hkey⟩ := ih e.1 (Nat.lt_of_lt_of_le hless (Nat.le_of_lt_succ hn))
          obtain ⟨value, hvalue⟩ := ih e.2 (Nat.lt_of_lt_of_le hless (Nat.le_of_lt_succ hn))
          exact ⟨(key, value), hkey, hvalue⟩
        obtain ⟨entries, hentries⟩ := forall₂_exists hentries
        obtain ⟨hlen, hzip⟩ := List.forall₂_iff_zip.mp hentries
        exact ⟨_, .mapping hi hlen (fun p hp => (hzip hp).1) fun p hp => (hzip hp).2⟩
    | _ => exact ⟨_, .atom rfl⟩

theorem draws_unique {p q : Picture} (hp : h.Draws path v p) (hq : h.Draws path v q) : q = p := by
  induction hp generalizing q with
  | atom hv =>
    cases hq with
    | atom => rfl
    | _ => cases hv
  | listAgain hi =>
    cases hq with
    | atom hv => cases hv
    | listAgain => rfl
    | list hn => exact absurd hi hn
  | mappingAgain hi =>
    cases hq with
    | atom hv => cases hv
    | mappingAgain => rfl
    | mapping hn => exact absurd hi hn
  | list hn hlen _ ih =>
    cases hq with
    | atom hv => cases hv
    | listAgain hi => exact absurd hi hn
    | list _ hlen' hitems =>
      have hsame := forall₂_determined
        (List.forall₂_iff_zip.mpr ⟨hlen, fun hp c hc => ih _ hp hc⟩)
        (List.forall₂_iff_zip.mpr ⟨hlen', fun hp => hitems _ hp⟩)
      rw [hsame]
  | mapping hn hlen _ _ ihkeys ihvalues =>
    cases hq with
    | atom hv => cases hv
    | mappingAgain hi => exact absurd hi hn
    | mapping _ hlen' hkeys hvalues =>
      have hsame := forall₂_determined
        (S := fun e p => h.Draws _ e.1 p.1 ∧ h.Draws _ e.2 p.2)
        (List.forall₂_iff_zip.mpr ⟨hlen, fun hp c hc =>
          Prod.ext (ihkeys _ hp hc.1) (ihvalues _ hp hc.2)⟩)
        (List.forall₂_iff_zip.mpr ⟨hlen', fun hp => ⟨hkeys _ hp, hvalues _ hp⟩⟩)
      rw [hsame]

/-! ### The picture is what is written -/

theorem draws_text {p : Picture} (hp : h.Draws path v p) (hf : h.offPath path < fuel) :
    h.displayWithin fuel path v = p.text := by
  induction hp generalizing fuel with
  | @atom _ v hv =>
    rw [Picture.text]
    cases v <;> cases hv <;> cases fuel <;> rfl
  | listAgain hi =>
    obtain ⟨n, rfl⟩ : ∃ n, fuel = n + 1 := ⟨fuel - 1, by omega⟩
    rw [displayWithin, if_pos (by simpa using hi)]
    simp [Picture.text, Value.atomText]
  | mappingAgain hi =>
    obtain ⟨n, rfl⟩ : ∃ n, fuel = n + 1 := ⟨fuel - 1, by omega⟩
    rw [displayWithin, if_pos (by simpa using hi)]
    simp [Picture.text, Value.atomText]
  | list hn hlen _ ih =>
    obtain ⟨n, rfl⟩ : ∃ n, fuel = n + 1 := ⟨fuel - 1, by omega⟩
    rw [displayWithin, if_neg (by simpa using hn), Picture.text]
    dsimp only
    rw [map_eq_of_forall₂ (g := fun p => p.text) (List.forall₂_iff_zip.mpr ⟨hlen, fun hp => ?_⟩)]
    have hless := offPath_list (lt_of_mem_list (List.of_mem_zip hp).1) hn
    exact ih _ hp (by omega)
  | mapping hn hlen _ _ ihkeys ihvalues =>
    obtain ⟨n, rfl⟩ : ∃ n, fuel = n + 1 := ⟨fuel - 1, by omega⟩
    rw [displayWithin, if_neg (by simpa using hn), Picture.text]
    dsimp only
    rw [map_eq_of_forall₂ (g := fun e : Picture × Picture => e.1.text ++ ": " ++ e.2.text)
      (List.forall₂_iff_zip.mpr ⟨hlen, fun hp => ?_⟩)]
    have hless := offPath_mapping (lt_of_mem_mapping (List.of_mem_zip hp).1) hn
    have hfuel := Nat.lt_of_lt_of_le hless (Nat.le_of_lt_succ hf)
    rw [ihkeys _ hp hfuel, ihvalues _ hp hfuel]

/-! ### Values above no cycle -/

theorem unfolds_accessible {p : Picture} (hp : h.Unfolds v p) : Acc h.PartOf v := by
  induction hp with
  | @atom v hv =>
    refine Acc.intro v fun u hu => ?_
    cases v <;> cases hv <;> exact hu.elim
  | list hlen _ ih =>
    refine Acc.intro _ fun u hu => ?_
    obtain ⟨p, hp, rfl⟩ := zip_left hlen hu
    exact ih p hp
  | mapping hlen _ _ ihkeys ihvalues =>
    refine Acc.intro _ fun u hu => ?_
    obtain ⟨e, he, rfl | rfl⟩ := hu
    · obtain ⟨p, hp, rfl⟩ := zip_left hlen he
      exact ihkeys p hp
    · obtain ⟨p, hp, rfl⟩ := zip_left hlen he
      exact ihvalues p hp

theorem accessible_not_within (hv : Acc h.PartOf v) : ¬ TransGen h.PartOf v v := by
  induction hv with
  | intro v _ ih =>
    intro hself
    obtain ⟨w, hvw, hwv⟩ := TransGen.tail'_iff.mp hself
    exact ih w hwv (.head' hwv hvw)

theorem unfolds_acyclic {p : Picture} (hp : h.Unfolds v p) : h.Acyclic v := by
  intro u hu
  have hacc : Acc h.PartOf u := by
    induction hu using ReflTransGen.head_induction_on with
    | refl => exact unfolds_accessible hp
    | head hpart _ ih => exact ih.inv hpart
  exact accessible_not_within hacc

theorem Acyclic.part (ha : h.Acyclic v) (hu : h.PartOf u v) : h.Acyclic u :=
  fun t ht => ha t (ht.tail hu)

/-- Every container of the path leads to the value. -/
structure Around (h : Heap) (path : Enclosing) (v : Value) : Prop where
  lists : ∀ i ∈ path.lists, TransGen h.PartOf v (.list i)
  mappings : ∀ i ∈ path.mappings, TransGen h.PartOf v (.mapping i)

theorem Around.step_list (hp : h.Around path (.list i)) (hv : h.PartOf v (.list i)) :
    h.Around { path with lists := i :: path.lists } v where
  lists := List.forall_mem_cons.mpr ⟨.single hv, fun j hj => .head hv (hp.lists j hj)⟩
  mappings := fun j hj => .head hv (hp.mappings j hj)

theorem Around.step_mapping (hp : h.Around path (.mapping i)) (hv : h.PartOf v (.mapping i)) :
    h.Around { path with mappings := i :: path.mappings } v where
  lists := fun j hj => .head hv (hp.lists j hj)
  mappings := List.forall_mem_cons.mpr ⟨.single hv, fun j hj => .head hv (hp.mappings j hj)⟩

theorem draws_unfolds {p : Picture} (hp : h.Draws path v p) (houter : h.Around path v)
    (ha : h.Acyclic v) : h.Unfolds v p := by
  induction hp with
  | atom hv => exact .atom hv
  | listAgain hi => exact absurd (houter.lists _ hi) (ha _ .refl)
  | mappingAgain hi => exact absurd (houter.mappings _ hi) (ha _ .refl)
  | @list _ i _ _ hlen _ ih =>
    refine .list hlen fun p hp => ?_
    have hpart : h.PartOf p.1 (.list i) := (List.of_mem_zip hp).1
    exact ih p hp (houter.step_list hpart) (ha.part hpart)
  | @mapping _ i _ _ hlen _ _ ihkeys ihvalues =>
    refine .mapping hlen (fun p hp => ?_) fun p hp => ?_
    · have hpart : h.PartOf p.1.1 (.mapping i) := ⟨p.1, (List.of_mem_zip hp).1, .inl rfl⟩
      exact ihkeys p hp (houter.step_mapping hpart) (ha.part hpart)
    · have hpart : h.PartOf p.1.2 (.mapping i) := ⟨p.1, (List.of_mem_zip hp).1, .inr rfl⟩
      exact ihvalues p hp (houter.step_mapping hpart) (ha.part hpart)

/-- Whatever a heap holds, a value has one picture, which any allowance above the number of
containers writes; it is the whole tree just where no cycle is below the value. -/
theorem display_marks_cycles (h : Heap) (v : Value) :
    ∃ p, h.Draws ⟨[], []⟩ v p ∧ (∀ q, h.Draws ⟨[], []⟩ v q → q = p) ∧ h.display v = p.text ∧
      (∀ fuel, h.size < fuel → (h.displayThrough fuel v).run ⟨[], []⟩ = (p.text, ⟨[], []⟩)) ∧
      (h.Acyclic v ↔ h.Unfolds v p) := by
  have hstart := offPath_start h
  obtain ⟨p, hp⟩ : ∃ p, h.Draws ⟨[], []⟩ v p := exists_draws v (Nat.lt_succ_self _)
  have htext : ∀ fuel, h.size < fuel →
      (h.displayThrough fuel v).run ⟨[], []⟩ = (p.text, ⟨[], []⟩) := by
    intro fuel hf
    rw [displayThrough_eq, draws_text hp (by omega)]
  have houter : h.Around ⟨[], []⟩ v := ⟨fun _ hi => (List.not_mem_nil hi).elim,
    fun _ hi => (List.not_mem_nil hi).elim⟩
  exact ⟨p, hp, fun q hq => draws_unique hp hq, congrArg Prod.fst (htext _ (Nat.lt_succ_self _)), htext,
    draws_unfolds hp houter, unfolds_acyclic⟩

example :
    Heap.display { lists := #[#[.integer 1, .list 0], #[.list 0, .list 0]], mappings := #[] }
      (.list 1) = "[[1, [...]], [1, [...]]]" := by decide

end Offside.Heap
