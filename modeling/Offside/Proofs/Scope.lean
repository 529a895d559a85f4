import Mathlib.Data.List.Basic
import Mathlib.Tactic
import Offside.Scope

/-!
Names in scopes. A scope that is written to keeps its names in their order, and gets a new one only
if it does not bind it yet. Scopes are only ever added, and none changes its parent.
-/

namespace Offside

variable {name : Json} {v : Value}

namespace Scope

theorem find_replaceIn {bindings : List (Json × Value)} (h : bindings.any (·.1.same name) = true) :
    ((replaceIn name v bindings).find? (·.1.same name)).map (·.2) = some v := by
  induction bindings with
  | nil => cases h
  | cons b rest ih =>
    rw [replaceIn]
    split_ifs with hb
    · simp [hb]
    · simp only [List.any_cons, hb, Bool.false_or] at h
      simpa [List.find?_cons, hb] using ih h

theorem get_define (s : Scope) (hn : name.same name = true) :
    (s.define name v).get? name = some v := by
  unfold define
  split_ifs with hb
  · exact find_replaceIn hb
  · have hnone : s.bindings.find? (·.1.same name) = none := by
      simpa [binds] using hb
    rw [get?, List.find?_append, hnone, Option.none_or]
    simp [hn]

theorem binds_of_get {s : Scope} (h : s.get? name = some v) : s.binds name = true := by
  obtain ⟨b, hb, -⟩ := Option.map_eq_some_iff.mp h
  have hsame := List.find?_some hb
  exact List.any_eq_true.mpr ⟨b, List.mem_of_find?_eq_some hb, hsame⟩

theorem binds_iff {s : Scope} : s.binds name = true ↔ ∃ x ∈ s.names, x.same name = true := by
  simp [binds, names]

theorem names_replaceIn (bindings : List (Json × Value)) :
    (replaceIn name v bindings).map (·.1) = bindings.map (·.1) := by
  induction bindings with
  | nil => rfl
  | cons b rest ih =>
    rw [replaceIn]
    by_cases hb : b.1.same name = true
    · simp [hb]
    · simp [hb, ih]

/-- A name that is bound already gets a value only. -/
theorem names_define_bound {s : Scope} (h : s.binds name = true) :
    (s.define name v).names = s.names := by
  rw [define, if_pos h]
  exact names_replaceIn s.bindings

theorem names_define (s : Scope) : s.names <+: (s.define name v).names := by
  by_cases h : s.binds name = true
  · rw [names_define_bound h]
  · rw [define, if_neg h]
    simp [names]

theorem binds_define (s : Scope) (hn : name.same name = true) :
    (s.define name v).binds name = true :=
  binds_of_get (get_define s hn)

theorem parent_define (s : Scope) : (s.define name v).parent = s.parent := by
  by_cases h : s.binds name = true
  · rw [define, if_pos h]
  · rw [define, if_neg h]

/-- More names bind more. -/
theorem binds_mono {s s' : Scope} (h : s.names <+: s'.names) (hb : s.binds name = true) :
    s'.binds name = true := by
  obtain ⟨x, hx, hsame⟩ := binds_iff.mp hb
  exact binds_iff.mpr ⟨x, h.subset hx, hsame⟩

end Scope

namespace Scopes

theorem define_size (scopes : Scopes) (s : Nat) (name : Json) (v : Value) :
    (scopes.define s name v).table.size = scopes.table.size := by
  simp [define]

theorem scope_define_self {scopes : Scopes} {s : Nat} (hs : s < scopes.table.size) :
    (scopes.define s name v).scope s = (scopes.scope s).define name v := by
  simp [define, scope, hs, Array.getElem_modify_self]

theorem scope_define_other {scopes : Scopes} {s i : Nat}
    (h : i ≠ s ∨ scopes.table.size ≤ s) :
    (scopes.define s name v).scope i = scopes.scope i := by
  by_cases hi : i < scopes.table.size
  · have hne : s ≠ i := by omega
    simp [define, scope, hi, Array.getElem_modify_of_ne hne]
  · simp [define, scope, hi]

theorem get_assign_zero {scopes : Scopes} (hs : 0 < scopes.table.size)
    (hn : name.same name = true) : (scopes.assign 0 name v).get? 0 name = some v := by
  have howner : (scopes.owner? 0 name).getD 0 = 0 := by
    rw [owner?, ownerWithin]
    split_ifs
    · rfl
    · cases (scopes.scope 0).parent <;> rfl
  have hget := Scope.get_define (scopes.scope 0) (v := v) hn
  rw [assign, howner, get?, owner?, ownerWithin, scope_define_self hs,
    if_pos (Scope.binds_of_get hget)]
  rw [Option.bind_some, scope_define_self hs, hget]

theorem owner_binds {scopes : Scopes} {s o : Nat} (h : scopes.owner? s name = some o) :
    (scopes.scope o).binds name = true := by
  have hwithin : ∀ fuel s, scopes.ownerWithin name fuel s = some o →
      (scopes.scope o).binds name = true := by
    intro fuel
    induction fuel with
    | zero => exact fun s h => nomatch h
    | succ fuel ih =>
      intro s h
      rw [ownerWithin] at h
      by_cases hb : (scopes.scope s).binds name = true
      · rw [if_pos hb] at h
        exact Option.some.inj h ▸ hb
      · rw [if_neg hb] at h
        cases hp : (scopes.scope s).parent with
        | none =>
          rw [hp] at h
          cases h
        | some parent =>
          rw [hp] at h
          exact ih parent h
  exact hwithin _ _ h

theorem scope_child_old {scopes : Scopes} {s i : Nat} (hi : i < scopes.table.size) :
    (scopes.child s).2.scope i = scopes.scope i := by
  simp [child, scope, Array.getElem?_push, hi.ne]

/-- The scopes of `base` are all there, with their parents and their names and perhaps more names;
those with a number below `low` have no more. -/
structure Extends (base : Scopes) (low : Nat) (scopes : Scopes) : Prop where
  size : base.table.size ≤ scopes.table.size
  parent : ∀ i < base.table.size, (scopes.scope i).parent = (base.scope i).parent
  names : ∀ i < base.table.size, (base.scope i).names <+: (scopes.scope i).names
  closed : ∀ i < low, (scopes.scope i).names = (base.scope i).names

variable {base scopes : Scopes} {low s : Nat}

theorem extends_refl (scopes : Scopes) (low : Nat) : scopes.Extends low scopes :=
  ⟨Nat.le_refl _, fun _ _ => rfl, fun _ _ => List.prefix_refl _, fun _ _ => rfl⟩

theorem extends_trans {middle : Scopes} (h : base.Extends 0 middle) (h' : middle.Extends 0 scopes) :
    base.Extends 0 scopes where
  size := h.size.trans h'.size
  parent i hi := (h'.parent i (hi.trans_le h.size)).trans (h.parent i hi)
  names i hi := (h.names i hi).trans (h'.names i (hi.trans_le h.size))
  closed _ hi := absurd hi (Nat.not_lt_zero _)

/-- Names are new in scopes from `low` on only. -/
theorem extends_define (h : base.Extends low scopes)
    (hs : low ≤ s ∨ (scopes.scope s).binds name = true) :
    base.Extends low (scopes.define s name v) := by
  by_cases hsize : s < scopes.table.size
  · have hother {i : Nat} (hi : i ≠ s) :
        (scopes.define s name v).scope i = scopes.scope i := scope_define_other (.inl hi)
    have hself : (scopes.define s name v).scope s = (scopes.scope s).define name v :=
      scope_define_self hsize
    constructor
    · rw [define_size]
      exact h.size
    · intro i hi
      by_cases his : i = s
      · rw [his, hself, Scope.parent_define]
        exact his ▸ h.parent i hi
      · rw [hother his]
        exact h.parent i hi
    · intro i hi
      by_cases his : i = s
      · rw [his, hself]
        exact (his ▸ h.names i hi).trans (Scope.names_define _)
      · rw [hother his]
        exact h.names i hi
    · intro i hi
      by_cases his : i = s
      · rcases hs with hs | hs
        · omega
        · rw [his, hself, Scope.names_define_bound hs]
          exact his ▸ h.closed i hi
      · rw [hother his]
        exact h.closed i hi
  · have hall (i : Nat) : (scopes.define s name v).scope i = scopes.scope i :=
      scope_define_other (.inr (not_lt.mp hsize))
    constructor
    · rw [define_size]
      exact h.size
    all_goals
      intro i hi
      rw [hall]
    · exact h.parent i hi
    · exact h.names i hi
    · exact h.closed i hi

/-- An assignment makes a name in its own scope only; elsewhere it finds one. -/
theorem extends_assign (h : base.Extends low scopes) (hs : low ≤ s) :
    base.Extends low (scopes.assign s name v) := by
  apply extends_define h
  cases ho : scopes.owner? s name with
  | none => exact .inl hs
  | some o => exact .inr (owner_binds ho)

theorem extends_child (h : base.Extends low scopes) (hlow : low ≤ base.table.size) (s : Nat) :
    base.Extends low (scopes.child s).2 := by
  have hsize := h.size
  constructor
  · simp [child]
    omega
  all_goals
    intro i hi
    rw [scope_child_old (by omega)]
  · exact h.parent i hi
  · exact h.names i hi
  · exact h.closed i hi

/-- What comes after does not put another scope around those that there were. -/
theorem outermost_extends {base scopes : Scopes} (h : base.Extends 0 scopes) {s : Nat}
    (hs : base.outermost s < base.table.size) : scopes.outermost s = base.outermost s := by
  have hwithin : ∀ fuel s, base.outermostWithin fuel s < base.table.size →
      scopes.outermostWithin fuel s = base.outermostWithin fuel s := by
    intro fuel
    induction fuel with
    | zero => exact fun s _ => rfl
    | succ fuel ih =>
      intro s hs
      by_cases hsize : s < base.table.size
      · rw [outermostWithin, outermostWithin, h.parent s hsize]
        rw [outermostWithin] at hs
        cases hp : (base.scope s).parent with
        | none => rfl
        | some parent =>
          rw [hp] at hs
          exact ih parent hs
      · have hnone : (base.scope s).parent = none := by
          rw [scope, Array.getElem?_eq_none (by omega)]
          rfl
        rw [outermostWithin, hnone] at hs
        exact absurd hs hsize
  exact hwithin _ _ hs

end Scopes

end Offside
