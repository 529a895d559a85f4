import Mathlib.Data.List.Nodup
import Mathlib.Logic.Relation
import Offside.Proofs.Scope

/-!
Writing in a forest of scopes. A scope's chain leads through its parents to a root, and a name means
what the first scope of the chain that binds it holds. A write changes one name of one scope, and is
seen through the chains that come to that scope before any other that binds the name.
-/

namespace Offside

theorem Json.same_string_iff {j : Json} {name : String} :
    j.same (.string name) = true ↔ j = .string name := by
  cases j <;> simp [same, sameAtom, countable]

namespace Scope

variable {s : Scope} {name other : String} {v : Value}

theorem string_other (h : other ≠ name) : (Json.string name).same (.string other) = false := by
  rw [Bool.eq_false_iff]
  exact fun hsame => h (Json.string.inj (Json.same_string_iff.mp hsame)).symm

theorem binds_eq (s : Scope) (name : Json) : s.binds name = (s.get? name).isSome := by
  rw [Bool.eq_iff_iff, get?, Option.isSome_map, List.find?_isSome, binds, List.any_eq_true]

theorem get_replaceIn_other {bindings : List (Json × Value)} (h : other ≠ name) :
    ((replaceIn (.string name) v bindings).find? (·.1.same (.string other))).map (·.2) =
      (bindings.find? (·.1.same (.string other))).map (·.2) := by
  induction bindings with
  | nil => rfl
  | cons b rest ih =>
    rw [replaceIn]
    split_ifs with hb
    · have hother : b.1.same (.string other) = false := by
        rw [Json.same_string_iff.mp hb]
        exact string_other h
      simp only [List.find?_cons, hother]
    · simp only [List.find?_cons]
      cases b.1.same (.string other) with
      | true => rfl
      | false => exact ih

/-- A name that is defined has the new value, and every other name what it had. -/
theorem get_define_string (s : Scope) (name other : String) (v : Value) :
    (s.define (.string name) v).get? (.string other) =
      if other = name then some v else s.get? (.string other) := by
  split_ifs with h
  · subst h
    exact get_define s (Json.same_string_iff.mpr rfl)
  · unfold define
    split_ifs with hb
    · exact get_replaceIn_other h
    · simp only [get?, List.find?_append, List.find?_cons, string_other h, List.find?_nil,
        Option.or_none]

end Scope

namespace Scopes

open Relation

/-- A new root, or one of the operations on a scope that is there. -/
inductive Grows : Scopes → Scopes → Prop where
  | root (f : Scopes) : Grows f ⟨f.table.push ⟨none, []⟩⟩
  | child {f : Scopes} {s : Nat} : s < f.table.size → Grows f (f.child s).2
  | define {f : Scopes} {s : Nat} (name : String) (v : Value) : s < f.table.size →
      Grows f (f.define s (.string name) v)
  | assign {f : Scopes} {s : Nat} (name : String) (v : Value) : s < f.table.size →
      Grows f (f.assign s (.string name) v)

/-- What the operations make of nothing. -/
def Forest (f : Scopes) : Prop := ReflTransGen Grows ⟨#[]⟩ f

/-- The scope and those around it, out to a root. -/
inductive Chain (f : Scopes) : Nat → List Nat → Prop where
  | root {s : Nat} : (f.scope s).parent = none → Chain f s [s]
  | inner {s p : Nat} {chain : List Nat} : (f.scope s).parent = some p → Chain f p chain →
      Chain f s (s :: chain)

/-- The chain of `t` comes to `w` before any other scope that binds the name. -/
def Meets (f : Scopes) (t : Nat) (name : String) (w : Nat) : Prop :=
  ∃ near far, f.Chain t (near ++ w :: far) ∧ ∀ i ∈ near, (f.scope i).binds (.string name) = false

/-- The scope that an assignment in `s` writes: the nearest one that binds the name, or else `s`. -/
def Target (f : Scopes) (s : Nat) (name : String) (w : Nat) : Prop :=
  (f.Meets s name w ∧ (f.scope w).binds (.string name) = true) ∨
    (w = s ∧ ∃ chain, f.Chain s chain ∧ ∀ i ∈ chain, (f.scope i).binds (.string name) = false)

/-- The scopes differ in what one name means in the scope `w`, and so far as that one is seen. -/
structure Writes (f f' : Scopes) (w : Nat) (name : String) (v : Value) : Prop where
  size : f'.table.size = f.table.size
  parent : ∀ i, (f'.scope i).parent = (f.scope i).parent
  cell : ∀ i other, (f'.scope i).get? (.string other) =
    if i = w ∧ other = name then some v else (f.scope i).get? (.string other)
  seen : ∀ t, f.Meets t name w → f'.get? t (.string name) = some v
  unseen : ∀ t other, ¬ (other = name ∧ f.Meets t name w) →
    f'.get? t (.string other) = f.get? t (.string other)

variable {f f' : Scopes} {s t w p : Nat} {chain : List Nat} {name other : String} {v : Value}

/-! ### Chains -/

/-- Parents are older. -/
def Ordered (f : Scopes) : Prop := ∀ s p, (f.scope s).parent = some p → p < s

theorem Ordered.exists_chain (h : f.Ordered) (s : Nat) :
    ∃ chain, f.Chain s chain ∧ chain.Nodup ∧ ∀ i ∈ chain, i ≤ s := by
  induction s using Nat.strong_induction_on with
  | _ s ih =>
    cases hp : (f.scope s).parent with
    | none => exact ⟨[s], .root hp, List.nodup_singleton s, by simp⟩
    | some p =>
      have hlt := h s p hp
      obtain ⟨chain, hchain, hd, hle⟩ := ih p hlt
      refine ⟨s :: chain, .inner hp hchain, List.nodup_cons.mpr ⟨fun hs => ?_, hd⟩, ?_⟩
      · exact absurd (hle s hs) (not_le.mpr hlt)
      · exact List.forall_mem_cons.mpr ⟨le_refl s, fun i hi => (hle i hi).trans hlt.le⟩

theorem Chain.unique {chain' : List Nat} (h : f.Chain s chain) (h' : f.Chain s chain') :
    chain = chain' := by
  induction h generalizing chain' with
  | root hp =>
    cases h' with
    | root => rfl
    | inner hp' => exact absurd (hp.symm.trans hp') nofun
  | inner hp _ ih =>
    cases h' with
    | root hp' => exact absurd (hp.symm.trans hp') nofun
    | inner hp' hchain =>
      obtain rfl := Option.some.inj (hp.symm.trans hp')
      rw [ih hchain]

theorem Chain.congr (hparent : ∀ i, (f'.scope i).parent = (f.scope i).parent) :
    f'.Chain s chain ↔ f.Chain s chain := by
  constructor <;> intro h
  · induction h with
    | root hp => exact .root (hparent _ ▸ hp)
    | inner hp _ ih => exact .inner (hparent _ ▸ hp) ih
  · induction h with
    | root hp => exact .root ((hparent _).trans hp)
    | inner hp _ ih => exact .inner ((hparent _).trans hp) ih

/-- The owner of a name is the first scope of the chain that binds it. -/
theorem Chain.owner (ho : f.Ordered) (h : f.Chain s chain) (name : Json) :
    f.owner? s name = chain.find? fun i => (f.scope i).binds name := by
  have hwithin : ∀ fuel, s < fuel →
      f.ownerWithin name fuel s = chain.find? fun i => (f.scope i).binds name := by
    induction h with
    | root hp =>
      intro fuel hfuel
      obtain ⟨fuel, rfl⟩ := Nat.exists_eq_add_one_of_ne_zero (Nat.ne_zero_of_lt hfuel)
      rw [ownerWithin, hp, List.find?_cons, List.find?_nil]
      cases (f.scope _).binds name <;> rfl
    | inner hp _ ih =>
      intro fuel hfuel
      obtain ⟨fuel, rfl⟩ := Nat.exists_eq_add_one_of_ne_zero (Nat.ne_zero_of_lt hfuel)
      rw [ownerWithin, hp, List.find?_cons]
      dsimp only
      rw [ih fuel ((ho _ _ hp).trans_le (Nat.lt_succ_iff.mp hfuel))]
      cases (f.scope _).binds name <;> rfl
  exact hwithin (s + 1) (Nat.lt_succ_self s)

/-- A name means what the first scope of the chain that binds it holds. -/
theorem Chain.get (ho : f.Ordered) (h : f.Chain s chain) (name : Json) :
    f.get? s name = chain.findSome? fun i => (f.scope i).get? name := by
  rw [get?, h.owner ho]
  clear h
  induction chain with
  | nil => rfl
  | cons i chain ih =>
    rw [List.find?_cons, List.findSome?_cons, Scope.binds_eq]
    cases hget : (f.scope i).get? name with
    | none => exact ih
    | some v => exact hget

/-! ### Forests -/

theorem scope_push_root (f : Scopes) (i : Nat) :
    scope ⟨f.table.push ⟨none, []⟩⟩ i = f.scope i := by
  unfold scope
  rw [Array.getElem?_push]
  split_ifs with h
  · rw [h, Array.getElem?_eq_none (le_refl _)]
    rfl
  · rfl

theorem scope_child_new (f : Scopes) (s : Nat) : (f.child s).2.scope f.table.size = ⟨some s, []⟩ := by
  simp [child, scope]

theorem scope_child_beyond {i : Nat} (hi : f.table.size < i) (s : Nat) :
    (f.child s).2.scope i = f.scope i := by
  simp [child, scope, Array.getElem?_push, hi.ne', Array.getElem?_eq_none hi.le]

theorem parent_defined (f : Scopes) (s : Nat) (name : Json) (v : Value) (i : Nat) :
    ((f.define s name v).scope i).parent = (f.scope i).parent := by
  by_cases h : i = s ∧ s < f.table.size
  · obtain ⟨rfl, hs⟩ := h
    rw [scope_define_self hs, Scope.parent_define]
  · rw [scope_define_other (by omega)]

theorem grows_ordered (ho : f.Ordered) (h : Grows f f') : f'.Ordered := by
  intro i p hp
  cases h with
  | root => exact ho i p (scope_push_root f i ▸ hp)
  | @child s hs =>
    rcases Nat.lt_trichotomy i f.table.size with hi | rfl | hi
    · exact ho i p (scope_child_old hi ▸ hp)
    · rw [scope_child_new] at hp
      exact Option.some.inj hp ▸ hs
    · exact ho i p (scope_child_beyond hi s ▸ hp)
  | define name v _ => exact ho i p (parent_defined f _ _ v i ▸ hp)
  | assign name v _ => exact ho i p (parent_defined f _ _ v i ▸ hp)

theorem forest_ordered (h : Forest f) : f.Ordered := by
  induction h with
  | refl => exact fun _ _ hp => nomatch hp
  | tail _ hstep ih => exact grows_ordered ih hstep

theorem binds_defined (f : Scopes) (s : Nat) (v : Value) {i : Nat}
    (h : (f.scope i).binds (.string other) = true) :
    ((f.define s (.string name) v).scope i).binds (.string other) = true := by
  by_cases hi : i = s ∧ s < f.table.size
  · obtain ⟨rfl, hs⟩ := hi
    rw [scope_define_self hs]
    exact Scope.binds_mono (Scope.names_define _) h
  · rwa [scope_define_other (by omega)]

/-- Scopes keep their parents and their names, whatever is done. -/
theorem grows_keeps (h : Grows f f') {i : Nat} (hi : i < f.table.size) :
    i < f'.table.size ∧ (f'.scope i).parent = (f.scope i).parent ∧
      ∀ other : String, (f.scope i).binds (.string other) = true →
        (f'.scope i).binds (.string other) = true := by
  cases h with
  | root =>
    rw [scope_push_root]
    exact ⟨by simp only [Array.size_push]; omega, rfl, fun _ => id⟩
  | child =>
    rw [scope_child_old hi]
    exact ⟨by simp only [child, Array.size_push]; omega, rfl, fun _ => id⟩
  | define name v _ =>
    rw [define_size]
    exact ⟨hi, parent_defined f _ _ v i, fun _ => binds_defined f _ v⟩
  | assign name v _ =>
    rw [assign, define_size]
    exact ⟨hi, parent_defined f _ _ v i, fun _ => binds_defined f _ v⟩

theorem forest_keeps (h : ReflTransGen Grows f f') {i : Nat} (hi : i < f.table.size) :
    i < f'.table.size ∧ (f'.scope i).parent = (f.scope i).parent ∧
      ∀ other : String, (f.scope i).binds (.string other) = true →
        (f'.scope i).binds (.string other) = true := by
  induction h with
  | refl => exact ⟨hi, rfl, fun _ => id⟩
  | tail _ hstep ih =>
    obtain ⟨hi', hparent, hbinds⟩ := ih
    obtain ⟨hi'', hparent', hbinds'⟩ := grows_keeps hstep hi'
    exact ⟨hi'', hparent'.trans hparent, fun other hb => hbinds' other (hbinds other hb)⟩

/-! ### Writes -/

theorem get_cell (hw : w < f.table.size) (i : Nat) :
    ((f.define w (.string name) v).scope i).get? (.string other) =
      if i = w ∧ other = name then some v else (f.scope i).get? (.string other) := by
  by_cases hi : i = w
  · subst hi
    rw [scope_define_self hw, Scope.get_define_string]
    simp
  · rw [scope_define_other (.inl hi), if_neg (fun h => hi h.1)]

theorem get_of_unbound {i : Nat} (h : (f.scope i).binds (.string name) = false) :
    (f.scope i).get? (.string name) = none := by
  rwa [Scope.binds_eq, Option.isSome_eq_false_iff, Option.isNone_iff_eq_none] at h

theorem findSome_congr {chain : List Nat} {g g' : Nat → Option Value}
    (h : ∀ i ∈ chain, g i = g' i) : chain.findSome? g = chain.findSome? g' := by
  induction chain with
  | nil => rfl
  | cons i chain ih =>
    obtain ⟨hi, hchain⟩ := List.forall_mem_cons.mp h
    rw [List.findSome?_cons, List.findSome?_cons, hi, ih hchain]

/-- Defining a name in a scope is seen through the chains that come to it first. -/
theorem define_writes (ho : f.Ordered) (hw : w < f.table.size) (name : String) (v : Value) :
    f.Writes (f.define w (.string name) v) w name v := by
  have hparent := parent_defined f w (.string name) v
  have ho' : Ordered (f.define w (.string name) v) := fun s p hp => ho s p (hparent s ▸ hp)
  have hother {other : String} {i : Nat} (h : ¬ (i = w ∧ other = name)) :
      ((f.define w (.string name) v).scope i).get? (.string other) =
        (f.scope i).get? (.string other) := (get_cell hw i).trans (if_neg h)
  refine ⟨define_size _ _ _ _, hparent, fun i other => get_cell hw i, ?_, ?_⟩
  · rintro t ⟨near, far, hchain, hnear⟩
    obtain ⟨chain, hchain', hd, -⟩ := ho.exists_chain t
    obtain rfl := hchain.unique hchain'
    have hunbound : ∀ i ∈ near,
        ((f.define w (.string name) v).scope i).get? (.string name) = none := by
      intro i hi
      have hne : i ≠ w := fun heq => (List.nodup_append.mp hd).2.2 i hi w List.mem_cons_self heq
      rw [hother fun h => hne h.1, get_of_unbound (hnear i hi)]
    rw [((Chain.congr hparent).mpr hchain).get ho', List.findSome?_append,
      List.findSome?_eq_none_iff.mpr hunbound, Option.none_or, List.findSome?_cons, get_cell hw,
      if_pos ⟨rfl, rfl⟩]
  · intro t other hnot
    obtain ⟨chain, hchain, hd, -⟩ := ho.exists_chain t
    rw [((Chain.congr hparent).mpr hchain).get ho', hchain.get ho]
    by_cases hmem : other = name ∧ w ∈ chain
    · obtain ⟨rfl, hmem⟩ := hmem
      obtain ⟨near, far, rfl⟩ := List.append_of_mem hmem
      -- A nearer scope binds the name, and what it holds is found first, before and after.
      have hbound : ∃ i ∈ near, (f.scope i).binds (.string other) = true := by
        by_contra hnone
        push Not at hnone
        exact hnot ⟨rfl, near, far, hchain, fun i hi => Bool.eq_false_iff.mpr (hnone i hi)⟩
      have hnear : ∀ i ∈ near, ((f.define w (.string other) v).scope i).get? (.string other) =
          (f.scope i).get? (.string other) := fun i hi =>
        hother fun h => (List.nodup_append.mp hd).2.2 i hi w List.mem_cons_self h.1
      have hfound : (near.findSome? fun i => (f.scope i).get? (.string other)).isSome := by
        obtain ⟨i, hi, hb⟩ := hbound
        rw [List.findSome?_isSome_iff]
        exact ⟨i, hi, Scope.binds_eq _ _ ▸ hb⟩
      rw [List.findSome?_append, List.findSome?_append, findSome_congr hnear,
        Option.or_of_isSome hfound, Option.or_of_isSome hfound]
    · exact findSome_congr fun i hi => hother fun h => hmem ⟨h.2, h.1 ▸ hi⟩

/-- An assignment has a scope to write, and it is the nearest one that binds the name, if any. -/
theorem assign_target (ho : f.Ordered) (hs : s < f.table.size) (name : String) (v : Value) :
    ∃ w < f.table.size, f.Target s name w ∧
      f.assign s (.string name) v = f.define w (.string name) v := by
  obtain ⟨chain, hchain, -, hle⟩ := ho.exists_chain s
  rw [assign, hchain.owner ho]
  cases hfind : chain.find? fun i => (f.scope i).binds (.string name) with
  | none =>
    rw [List.find?_eq_none] at hfind
    exact ⟨s, hs, .inr ⟨rfl, chain, hchain, fun i hi => by simpa using hfind i hi⟩, rfl⟩
  | some w =>
    obtain ⟨hb, near, far, rfl, hnear⟩ := List.find?_eq_some_iff_append.mp hfind
    have hw := hle w (List.mem_append_right _ List.mem_cons_self)
    refine ⟨w, hw.trans_lt hs, .inl ⟨⟨near, far, hchain, fun i hi => ?_⟩, hb⟩, rfl⟩
    simpa using hnear i hi

/-- In every forest the chains end, without coming to a scope twice, and no scope loses its parent
or a name. An assignment or a definition writes one name of one scope, and is seen where a chain
comes to that scope first. A name is there exactly where it means something. -/
theorem one_cell_written (f : Scopes) (hf : f.Forest) :
    (∀ s, ∃ chain, f.Chain s chain ∧ chain.Nodup) ∧
    (∀ f', ReflTransGen Grows f f' → ∀ s < f.table.size,
      (f'.scope s).parent = (f.scope s).parent ∧
        ∀ name : String, (f.scope s).binds (.string name) = true →
          (f'.scope s).binds (.string name) = true) ∧
    (∀ s < f.table.size, ∀ name v,
      (∃ w, f.Target s name w ∧ f.Writes (f.assign s (.string name) v) w name v) ∧
        f.Writes (f.define s (.string name) v) s name v) ∧
    ∀ t (name : String), f.contains t (.string name) = true ↔
      ∃ v, f.get? t (.string name) = some v := by
  have ho := forest_ordered hf
  refine ⟨fun s => ?_, fun f' h s hs => (forest_keeps h hs).2, fun s hs name v => ⟨?_, ?_⟩, ?_⟩
  · obtain ⟨chain, hchain, hd, -⟩ := ho.exists_chain s
    exact ⟨chain, hchain, hd⟩
  · obtain ⟨w, hw, htarget, heq⟩ := assign_target ho hs name v
    exact ⟨w, htarget, heq ▸ define_writes ho hw name v⟩
  · exact define_writes ho hs name v
  · intro t name
    rw [contains, get?]
    cases howner : f.owner? t (.string name) with
    | none => simp
    | some o =>
      have hb := owner_binds howner
      rw [Scope.binds_eq, Option.isSome_iff_exists] at hb
      simpa using hb

/-- Two scopes side by side in a third, which binds a name that one of them binds too. -/
def siblings : Scopes :=
  ⟨#[⟨none, [(.string "x", .integer 1)]⟩, ⟨some 0, []⟩, ⟨some 0, [(.string "x", .integer 2)]⟩]⟩

theorem siblings_forest : siblings.Forest :=
  ReflTransGen.refl.tail (.root _) |>.tail (.child (s := 0) (by decide))
    |>.tail (.child (s := 0) (by decide)) |>.tail (.define (s := 0) "x" (.integer 1) (by decide))
    |>.tail (.define (s := 2) "x" (.integer 2) (by decide))

/-- A write to the outer scope is seen from one of the inner ones only. -/
theorem siblings_written :
    siblings.Forest ∧
    (∃ w, siblings.Target 1 "x" w ∧
      siblings.Writes (siblings.assign 1 (.string "x") (.integer 3)) w "x" (.integer 3)) ∧
    (siblings.define 0 (.string "x") (.integer 3)).get? 1 (.string "x") = some (.integer 3) ∧
    (siblings.define 0 (.string "x") (.integer 3)).get? 2 (.string "x") = some (.integer 2) := by
  obtain ⟨-, -, hwrites, -⟩ := one_cell_written siblings siblings_forest
  obtain ⟨-, -, -, hseen, hunseen⟩ := (hwrites 0 (by decide) "x" (.integer 3)).2
  have hzero : siblings.Chain 0 [0] := .root rfl
  have htwo : siblings.Chain 2 [2, 0] := .inner rfl hzero
  refine ⟨siblings_forest, (hwrites 1 (by decide) "x" (.integer 3)).1, hseen 1 ?_, hunseen 2 "x" ?_⟩
  · exact ⟨[1], [], .inner rfl hzero, by decide⟩
  · rintro ⟨-, near, far, hchain, hnear⟩
    have hsplit := hchain.unique htwo
    have hmem : 2 ∈ near := by
      rcases near with _ | ⟨i, near⟩
      · cases hsplit
      · cases (List.cons.inj hsplit).1
        exact List.mem_cons_self
    exact absurd (hnear 2 hmem) (by decide)

end Scopes

end Offside
