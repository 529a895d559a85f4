import Mathlib.Tactic
import Offside.Library

/-!
The standard registry holds every builtin of the library under its name.
-/

namespace Offside

namespace Registry

theorem register_new {r : Registry} {b : Builtin} (h : b.name ∉ r.names) :
    r.register b = ⟨r.builtins ++ [b]⟩ := by
  have hn : r.contains b.name = false := by
    simpa [contains, names] using h
  rw [register, if_neg (by simp [hn])]

theorem registerAll_new (r : Registry) {bs : List Builtin}
    (h : ((r.builtins ++ bs).map (·.name)).Nodup) :
    r.registerAll bs = ⟨r.builtins ++ bs⟩ := by
  induction bs generalizing r with
  | nil => simp [registerAll]
  | cons b bs ih =>
    have hnew : b.name ∉ r.names := by
      rw [List.map_append, List.nodup_append] at h
      exact fun hb => h.2.2 _ hb _ List.mem_cons_self rfl
    have hstep : r.registerAll (b :: bs) = (r.register b).registerAll bs := rfl
    rw [hstep, register_new hnew, ih _ (by simpa using h)]
    simp

theorem find_builtin {r : Registry} (h : r.names.Nodup) {b : Builtin} (hb : b ∈ r.builtins) :
    r.find? b.name = some b := by
  obtain ⟨bs⟩ := r
  unfold find?
  induction bs with
  | nil => cases hb
  | cons c bs ih =>
    obtain ⟨hc, hbs⟩ := List.nodup_cons.mp h
    rcases List.mem_cons.mp hb with rfl | hb
    · exact List.find?_cons_of_pos (beq_self_eq_true _)
    · have hne : c.name ≠ b.name := fun heq => hc (List.mem_map.mpr ⟨b, hb, heq.symm⟩)
      rw [List.find?_cons_of_neg (by simpa using hne)]
      exact ih hbs hb

end Registry

namespace Library

theorem names_distinct : (builtins.map (·.name)).Nodup := by decide +kernel

theorem standard_eq : standard = ⟨builtins⟩ :=
  Registry.registerAll_new Registry.empty names_distinct

theorem find_standard {b : Builtin} (hb : b ∈ builtins) : standard.find? b.name = some b := by
  rw [standard_eq]
  exact Registry.find_builtin names_distinct hb

/-- A call of a builtin of the standard registry by its name; without one nothing is done. -/
def invoke (name : String) (args : List Value) : Action Value :=
  (standard.find? name).elim (pure .none) fun b => b.call args

theorem invoke_builtin {b : Builtin} (hb : b ∈ builtins) (args : List Value) :
    invoke b.name args = b.call args := by
  rw [invoke, find_standard hb]
  rfl

/-- A call that gives something is one of the right number of arguments. -/
theorem call_ok {b : Builtin} {args : List Value} {w w' : World} {v : Value}
    (h : b.call args w = .ok v w') : b.run args w = .ok v w' := by
  unfold Builtin.call at h
  cases hr : b.arity? with
  | none =>
    rw [hr] at h
    exact h
  | some range =>
    rw [hr] at h
    dsimp only at h
    split_ifs at h
    · exact h
    · cases h

end Library

end Offside
