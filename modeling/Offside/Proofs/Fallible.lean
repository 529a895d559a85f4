import Mathlib.Data.List.Forall2
import Mathlib.Tactic

/-!
Lists item by item. Through a function that may fail the result has one item for each, what the
function gives for it, and there is a result where the function fails for none.
-/

namespace Offside

variable {α β ε : Type} {f g : α → Except ε β} {as : List α}

theorem except_bind_ok {x : Except ε α} {k : α → Except ε β} {b : β} :
    x >>= k = .ok b ↔ ∃ a, x = .ok a ∧ k a = .ok b := by
  cases x <;> simp [bind, Except.bind]

theorem mapM_ok_iff {bs : List β} :
    as.mapM f = .ok bs ↔ List.Forall₂ (fun a b => f a = .ok b) as bs := by
  constructor
  · intro h
    induction as generalizing bs with
    | nil =>
      cases h
      exact .nil
    | cons a as ih =>
      rw [List.mapM_cons] at h
      cases ha : f a with
      | error e =>
        rw [ha] at h
        cases h
      | ok b =>
        cases has : as.mapM f with
        | error e =>
          rw [ha, has] at h
          cases h
        | ok bs' =>
          rw [ha, has] at h
          cases h
          exact .cons ha (ih has)
  · intro h
    induction h with
    | nil => rfl
    | cons ha _ ih =>
      rw [List.mapM_cons, ha, ih]
      rfl

theorem forall₂_exists {R : α → β → Prop} (h : ∀ a ∈ as, ∃ b, R a b) :
    ∃ bs, List.Forall₂ R as bs := by
  induction as with
  | nil => exact ⟨[], .nil⟩
  | cons a as ih =>
    obtain ⟨⟨b, hb⟩, has⟩ := List.forall_mem_cons.mp h
    obtain ⟨bs, hbs⟩ := ih has
    exact ⟨b :: bs, .cons hb hbs⟩

theorem mapM_congr (h : ∀ a ∈ as, f a = g a) : as.mapM f = as.mapM g := by
  induction as with
  | nil => rfl
  | cons a as ih =>
    rw [List.mapM_cons, List.mapM_cons, h a List.mem_cons_self,
      ih fun b hb => h b (List.mem_cons_of_mem a hb)]

theorem forall₂_determined {S : α → β → Prop} {bs cs : List β}
    (hb : List.Forall₂ (fun a b => ∀ c, S a c → c = b) as bs) (hc : List.Forall₂ S as cs) :
    cs = bs := by
  induction hb generalizing cs with
  | nil =>
    cases hc
    rfl
  | cons hab _ ih =>
    cases hc with
    | cons hac hrest => rw [hab _ hac, ih hrest]

theorem map_eq_of_forall₂ {γ : Type} {f : α → γ} {g : β → γ} {bs : List β}
    (h : List.Forall₂ (fun a b => f a = g b) as bs) : as.map f = bs.map g := by
  induction h with
  | nil => rfl
  | cons hab _ ih => rw [List.map_cons, List.map_cons, hab, ih]

theorem zip_left {bs : List β} (hlen : as.length = bs.length) {a : α}
    (ha : a ∈ as) : ∃ p ∈ as.zip bs, p.1 = a := by
  rw [← List.map_fst_zip hlen.le] at ha
  exact List.mem_map.mp ha

theorem zip_right {bs : List β} (hlen : as.length = bs.length) {b : β}
    (hb : b ∈ bs) : ∃ p ∈ as.zip bs, p.2 = b := by
  rw [← List.map_snd_zip hlen.ge] at hb
  exact List.mem_map.mp hb

end Offside
