import Mathlib
import Offside.Mapping

/-!
Keys of Mappings. Among the values that can be keys, being the same key is an equivalence, and what
a Mapping holds under a key depends on the key's class only.
-/

namespace Offside

open Float.Model

/-- A number up to the sign of zero. -/
def unsignedZero : UnpackedFloat → UnpackedFloat
  | .zero _ => .zero .positive
  | x => x

theorem sign_compare_eq (s t : UnpackedFloat.Sign) : compare s t = .eq ↔ s = t := by
  cases s <;> cases t
  · exact iff_of_true rfl rfl
  · exact iff_of_false nofun nofun
  · exact iff_of_false nofun nofun
  · exact iff_of_true rfl rfl

theorem unpacked_beq_iff (x y : UnpackedFloat) :
    x.beq y = true ↔ x ≠ .notANumber ∧ unsignedZero x = unsignedZero y := by
  unfold UnpackedFloat.beq
  cases x with
  | infinity s =>
    cases y <;> cases s <;> simp [UnpackedFloat.compare, unsignedZero, sign_compare_eq]
  | notANumber => cases y <;> simp [UnpackedFloat.compare]
  | zero s =>
    cases y with
    | finite t => cases t <;> simp [UnpackedFloat.compare, unsignedZero]
    | infinity t => cases t <;> simp [UnpackedFloat.compare, unsignedZero]
    | _ => simp [UnpackedFloat.compare, unsignedZero]
  | finite s m e hm =>
    cases y with
    | finite t =>
      cases s <;> cases t <;> simp [UnpackedFloat.compare, unsignedZero, and_comm]
    | infinity t => cases s <;> cases t <;> simp [UnpackedFloat.compare, unsignedZero]
    | zero t => cases s <;> simp [UnpackedFloat.compare, unsignedZero]
    | notANumber => cases s <;> simp [UnpackedFloat.compare, unsignedZero]

theorem float_beq_iff (x y : Float) :
    (x == y) = true ↔
      x.isNaN = false ∧ unsignedZero x.toModel.unpack = unsignedZero y.toModel.unpack := by
  have hn : x.isNaN = false ↔ x.toModel.unpack ≠ .notANumber := by
    change x.toModel.unpack.isNaN = false ↔ _
    cases x.toModel.unpack <;> simp [UnpackedFloat.isNaN]
  rw [hn]
  exact unpacked_beq_iff _ _

theorem float_beq_refl {x : Float} (h : x.isNaN = false) : (x == x) = true :=
  (float_beq_iff x x).mpr ⟨h, rfl⟩

theorem float_beq_symm {x y : Float} (h : (x == y) = true) : (y == x) = true := by
  have := (unpacked_beq_iff _ _).mp h
  refine (unpacked_beq_iff _ _).mpr ⟨?_, this.2.symm⟩
  intro hy
  apply this.1
  have he := this.2
  rw [hy] at he
  cases hx : x.toModel.unpack <;> simp_all [unsignedZero]

theorem float_beq_trans {x y z : Float} (h : (x == y) = true) (k : (y == z) = true) :
    (x == z) = true := by
  have h := (float_beq_iff x y).mp h
  have k := (float_beq_iff y z).mp k
  exact (float_beq_iff x z).mpr ⟨h.1, h.2.trans k.2⟩

/-- Two Floats that are one key: equal numbers, or both no numbers. -/
theorem float_key_iff (x y : Float) :
    (x == y || (x.isNaN && y.isNaN)) = true ↔
      (x == y) = true ∨ x.isNaN = true ∧ y.isNaN = true := by
  rw [Bool.or_eq_true, Bool.and_eq_true]

theorem number_of_float_beq {x y : Float} (h : (x == y) = true) :
    x.isNaN = false ∧ y.isNaN = false :=
  ⟨((float_beq_iff x y).mp h).1, ((float_beq_iff y x).mp (float_beq_symm h)).1⟩

namespace Value

theorem sameKey_symm {a b : Value} (h : a.sameKey b = true) : b.sameKey a = true := by
  cases a <;> cases b <;> simp only [sameKey, beq_iff_eq, float_key_iff, reduceCtorEq] at h ⊢
  case float.float => exact h.imp float_beq_symm And.symm
  all_goals exact h.symm

theorem sameKey_comm (a b : Value) : a.sameKey b = b.sameKey a :=
  Bool.eq_iff_iff.mpr ⟨sameKey_symm, sameKey_symm⟩

theorem sameKey_trans {a b c : Value} (h : a.sameKey b = true) (k : b.sameKey c = true) :
    a.sameKey c = true := by
  cases a <;> cases b <;> simp only [sameKey, beq_iff_eq, float_key_iff, reduceCtorEq] at h
  case float.float x y =>
    cases c <;> simp only [sameKey, float_key_iff, reduceCtorEq] at k ⊢
    rcases h with h | ⟨hx, hy⟩ <;> rcases k with k | ⟨hy', hz⟩
    · exact .inl (float_beq_trans h k)
    · exact absurd ((number_of_float_beq h).2.symm.trans hy') Bool.false_ne_true
    · exact absurd ((number_of_float_beq k).1.symm.trans hy) Bool.false_ne_true
    · exact .inr ⟨hx, hz⟩
  all_goals (try subst h); exact k

theorem sameKey_self {a : Value} (h : a.isHashable = true) : a.sameKey a = true := by
  cases a with
  | float x =>
    rw [sameKey, float_key_iff]
    cases hx : x.isNaN with
    | false => exact .inl (float_beq_refl hx)
    | true => exact .inr ⟨rfl, rfl⟩
  | integer | nan | boolean | string => exact beq_self_eq_true _
  | none => rfl
  | _ => cases h

theorem sameKey_congr {a b : Value} (h : a.sameKey b = true) (c : Value) :
    a.sameKey c = b.sameKey c :=
  Bool.eq_iff_iff.mpr ⟨sameKey_trans (sameKey_symm h), sameKey_trans h⟩

end Value

namespace Mapping

/-- No two entries have the same key. -/
def Distinct (m : Mapping) : Prop :=
  m.entries.Pairwise fun e f => e.1.sameKey f.1 = false

theorem distinct_iff {m : Mapping} :
    m.Distinct ↔ m.keys.Pairwise fun key key' => key.sameKey key' = false := by
  rw [Distinct, keys, List.pairwise_map]

theorem distinct_of_keys {m m' : Mapping} (hkeys : m.keys = m'.keys) (hd : m'.Distinct) :
    m.Distinct := by
  rwa [distinct_iff, hkeys, ← distinct_iff]

theorem find_congr {a b : Value} (h : a.sameKey b = true) (m : Mapping) :
    m.find? a = m.find? b := by
  unfold find?
  congr 1
  funext e
  exact Value.sameKey_congr h e.1

theorem get_congr {a b : Value} (h : a.sameKey b = true) (m : Mapping) :
    m.get? a = m.get? b := by
  rw [get?, get?, find_congr h]

theorem mem_of_get {m : Mapping} {key v : Value} (h : m.get? key = some v) :
    ∃ k, (k, v) ∈ m.entries ∧ key.sameKey k = true := by
  obtain ⟨e, he, rfl⟩ := Option.map_eq_some_iff.mp h
  unfold find? at he
  have hk := List.find?_some he
  exact ⟨e.1, List.mem_of_find?_eq_some he, hk⟩

theorem get_none_iff {m : Mapping} {key : Value} :
    m.get? key = none ↔ ∀ e ∈ m.entries, key.sameKey e.1 = false := by
  simp [get?, find?]

theorem find_of_mem {entries : List (Value × Value)} {e : Value × Value}
    (hd : entries.Pairwise fun e f => e.1.sameKey f.1 = false) (he : e ∈ entries)
    (hk : e.1.sameKey e.1 = true) : entries.find? (fun f => e.1.sameKey f.1) = some e := by
  induction entries with
  | nil => cases he
  | cons f rest ih =>
    obtain ⟨hf, hr⟩ := List.pairwise_cons.mp hd
    rcases List.mem_cons.mp he with rfl | he
    · exact List.find?_cons_of_pos hk
    · have hn : e.1.sameKey f.1 = false := by rw [Value.sameKey_comm, hf e he]
      rw [List.find?_cons, hn]
      exact ih hr he

theorem get_of_mem {m : Mapping} {key v : Value} (hd : m.Distinct) (he : (key, v) ∈ m.entries)
    (hk : key.sameKey key = true) : m.get? key = some v := by
  rw [get?, find?, find_of_mem hd he hk]
  rfl

theorem keys_exhaust {xs ys : List Value} (hd : xs.Pairwise fun a b => a.sameKey b = false)
    (hx : ∀ x ∈ xs, ∃ y ∈ ys, x.sameKey y = true) (hl : ys.length = xs.length) :
    ∀ y ∈ ys, ∃ x ∈ xs, x.sameKey y = true := by
  induction xs generalizing ys with
  | nil =>
    intro y hy
    rw [List.length_eq_zero_iff.mp hl] at hy
    cases hy
  | cons x xs ih =>
    obtain ⟨hx', hd⟩ := List.pairwise_cons.mp hd
    obtain ⟨y₀, hy₀, hk⟩ := hx x List.mem_cons_self
    obtain ⟨l, r, rfl⟩ := List.append_of_mem hy₀
    -- no later key has the class of `y₀`, so the others occur in what is left without it
    have hrest : ∀ z ∈ xs, ∃ y ∈ l ++ r, z.sameKey y = true := by
      intro z hz
      obtain ⟨y, hy, hzy⟩ := hx z (List.mem_cons_of_mem _ hz)
      have hne : y ≠ y₀ := by
        rintro rfl
        have hs := Value.sameKey_trans hk (Value.sameKey_symm hzy)
        rw [hx' z hz] at hs
        cases hs
      simp only [List.mem_append, List.mem_cons, hne, false_or] at hy
      exact ⟨y, List.mem_append.mpr hy, hzy⟩
    have hl' : (l ++ r).length = xs.length := by
      simp only [List.length_append, List.length_cons] at hl ⊢
      omega
    intro y hy
    simp only [List.mem_append, List.mem_cons] at hy
    rcases hy with hy | rfl | hy
    · obtain ⟨z, hz, hzy⟩ := ih hd hrest hl' y (List.mem_append_left r hy)
      exact ⟨z, List.mem_cons_of_mem x hz, hzy⟩
    · exact ⟨x, List.mem_cons_self, hk⟩
    · obtain ⟨z, hz, hzy⟩ := ih hd hrest hl' y (List.mem_append_right l hy)
      exact ⟨z, List.mem_cons_of_mem x hz, hzy⟩

end Mapping

end Offside
