import Mathlib.Data.Finset.Prod
import Mathlib.Data.Option.Basic
import Offside.Heap.Equality
import Offside.Proofs.Key

/-!
Equality of values is bisimilarity. The pairs met in a comparison that succeeds form, together
with the identical values, a bisimulation: a pair met again is taken as equal before it has been
compared, but the comparison that met it first either succeeds or refutes the whole.
-/

namespace Offside

variable {α β γ : Type}

namespace Value

/-- Equal data, the same reference, or one builtin bound to the same object. -/
def SameObject : Value → Value → Prop
  | integer m, integer n => m = n
  | float x, float y => (x == y) = true
  | boolean b, boolean c => b = c
  | string s, string t => s = t
  | none, none => True
  | list i, list j => i = j
  | mapping i, mapping j => i = j
  | function i _, function j _ => i = j
  | native f, native g => f = g
  | bound f r, bound g s => f = g ∧ r.SameObject s
  | _, _ => False

/-- Values of the language other than a NaN and methods bound to a String. -/
def Regular : Value → Prop
  | float x => x.isNaN = false
  | nan _ => False
  | bound _ (string _) => False
  | bound _ receiver => receiver.Regular
  | foreign _ => False
  | _ => True

theorem Regular.receiver {name : String} {r : Value} (h : (bound name r).Regular) : r.Regular := by
  cases r <;> first | exact h | trivial

theorem identical_iff {a b : Value} (ha : a.Regular) :
    a.identical b = true ↔ a.SameObject b := by
  induction a generalizing b with
  | bound f r ih =>
    cases b <;> simp [identical, SameObject, sameKey]
    intro _
    exact ih ha.receiver
  | nan | foreign => exact ha.elim
  | _ => cases b <;> simp [identical, SameObject, sameKey]

theorem sameObject_refl {a : Value} (ha : a.Regular) : a.SameObject a := by
  induction a with
  | float x => exact float_beq_refl ha
  | bound f r ih => exact ⟨rfl, ih ha.receiver⟩
  | nan | foreign => exact ha.elim
  | none => trivial
  | _ => rfl

theorem sameObject_symm {a b : Value} (h : a.SameObject b) : b.SameObject a := by
  induction a generalizing b with
  | float x =>
    cases b <;> simp only [SameObject] at h ⊢
    exact float_beq_symm h
  | bound f r ih =>
    cases b <;> simp only [SameObject] at h ⊢
    exact ⟨h.1.symm, ih h.2⟩
  | _ => cases b <;> simp only [SameObject] at h ⊢ <;> exact h.symm

theorem sameObject_trans {a b c : Value} (h : a.SameObject b) (k : b.SameObject c) :
    a.SameObject c := by
  induction a generalizing b c with
  | float x =>
    cases b <;> simp only [SameObject] at h
    cases c <;> simp only [SameObject] at k ⊢
    exact float_beq_trans h k
  | bound f r ih =>
    cases b <;> simp only [SameObject] at h
    cases c <;> simp only [SameObject] at k ⊢
    exact ⟨h.1.trans k.1, ih h.2 k.2⟩
  | _ => cases b <;> simp only [SameObject] at h <;> cases c <;> simp_all [SameObject]

def isContainer : Value → Bool
  | list _ | mapping _ => true
  | _ => false

theorem sameObject_atom {a b : Value} (h : a.SameObject b) (hb : b.isContainer = false) :
    a.isContainer = false := by
  cases a <;> first | rfl | (cases b <;> first | exact h.elim | cases hb)

end Value

private theorem optionRel_imp {R S : α → β → Prop} (hRS : ∀ a b, R a b → S a b)
    {a : Option α} {b : Option β} (h : Option.Rel R a b) : Option.Rel S a b := by
  cases h with
  | some hr => exact .some (hRS _ _ hr)
  | none => exact .none

private theorem optionRel_flip {R : α → β → Prop} {a : Option α} {b : Option β}
    (h : Option.Rel R a b) : Option.Rel (fun y x => R x y) b a := by
  cases h with
  | some hr => exact .some hr
  | none => exact .none

private theorem optionRel_trans {R : α → β → Prop} {S : β → γ → Prop} {a : Option α}
    {b : Option β} {c : Option γ} (h : Option.Rel R a b) (k : Option.Rel S b c) :
    Option.Rel (fun x z => ∃ y, R x y ∧ S y z) a c := by
  cases h with
  | some hr =>
    cases k with
    | some hs => exact .some ⟨_, hr, hs⟩
  | none =>
    cases k with
    | none => exact .none

private theorem forall₂_trans {R : α → β → Prop} {S : β → γ → Prop} {as : List α} {bs : List β}
    {cs : List γ} (h : List.Forall₂ R as bs) (k : List.Forall₂ S bs cs) :
    List.Forall₂ (fun x z => ∃ y, R x y ∧ S y z) as cs := by
  induction h generalizing cs with
  | nil =>
    cases k with
    | nil => exact .nil
  | cons hr _ ih =>
    cases k with
    | cons hs k => exact .cons ⟨_, hr, hs⟩ (ih k)

namespace Heap

variable {h : Heap}

/-- What two values have to agree in, when what they hold has to be related by `R`. -/
def Agree (h : Heap) (R : Value → Value → Prop) : Value → Value → Prop
  | .list i, .list j => List.Forall₂ R (h.list i).toList (h.list j).toList
  | .mapping i, .mapping j =>
    (h.mapping i).size = (h.mapping j).size ∧
      ∀ key, Option.Rel R ((h.mapping i).get? key) ((h.mapping j).get? key)
  | a, b => a.SameObject b

def IsBisimulation (h : Heap) (R : Value → Value → Prop) : Prop :=
  ∀ a b, R a b → h.Agree R a b

/-- The greatest bisimulation. -/
def Bisimilar (h : Heap) (a b : Value) : Prop := ∃ R, h.IsBisimulation R ∧ R a b

def Holds (h : Heap) (v : Value) : Prop :=
  v.Regular ∧
    match v with
    | .list i => i < h.lists.size
    | .mapping i => i < h.mappings.size
    | _ => True

/-- References lead to objects of the heap, and a Mapping has every key once. -/
structure Closed (h : Heap) : Prop where
  items : ∀ i, ∀ v ∈ (h.list i).toList, h.Holds v
  entries : ∀ i, ∀ e ∈ (h.mapping i).entries,
    e.1.isHashable = true ∧ h.Holds e.1 ∧ h.Holds e.2
  distinct : ∀ i, (h.mapping i).Distinct

theorem Closed.sameKey (hc : h.Closed) {i : Nat} {e : Value × Value}
    (he : e ∈ (h.mapping i).entries) : e.1.sameKey e.1 = true :=
  Value.sameKey_self (hc.entries i e he).1

theorem Closed.value (hc : h.Closed) {i : Nat} {key v : Value}
    (hv : (h.mapping i).get? key = some v) : h.Holds v := by
  obtain ⟨k, hk, _⟩ := Mapping.mem_of_get hv
  exact (hc.entries i _ hk).2.2

theorem agree_atom {R : Value → Value → Prop} {a b : Value} (ha : a.isContainer = false) :
    h.Agree R a b ↔ a.SameObject b := by
  cases a <;> first | rfl | simp [Value.isContainer] at ha

theorem agree_list {R : Value → Value → Prop} {i : Nat} {b : Value}
    (hab : h.Agree R (.list i) b) :
    ∃ j, b = .list j ∧ List.Forall₂ R (h.list i).toList (h.list j).toList := by
  cases b <;> first | exact ⟨_, rfl, hab⟩ | exact hab.elim

theorem agree_mapping {R : Value → Value → Prop} {i : Nat} {b : Value}
    (hab : h.Agree R (.mapping i) b) :
    ∃ j, b = .mapping j ∧ (h.mapping i).size = (h.mapping j).size ∧
      ∀ key, Option.Rel R ((h.mapping i).get? key) ((h.mapping j).get? key) := by
  cases b <;> first | exact ⟨_, rfl, hab⟩ | exact hab.elim

theorem Agree.mono {R S : Value → Value → Prop} (hRS : ∀ a b, R a b → S a b) {a b : Value}
    (hab : h.Agree R a b) : h.Agree S a b := by
  cases a with
  | list i =>
    obtain ⟨j, rfl, hl⟩ := agree_list hab
    exact hl.imp hRS
  | mapping i =>
    obtain ⟨j, rfl, hs, hm⟩ := agree_mapping hab
    exact ⟨hs, fun key => optionRel_imp hRS (hm key)⟩
  | _ => exact hab

theorem bisimilar_agree {a b : Value} (hab : h.Bisimilar a b) : h.Agree h.Bisimilar a b := by
  obtain ⟨R, hR, hab⟩ := hab
  exact (hR a b hab).mono fun x y hxy => ⟨R, hR, hxy⟩

theorem agree_refl {R : Value → Value → Prop} (hc : h.Closed) (hR : ∀ v, h.Holds v → R v v)
    {a : Value} (ha : h.Holds a) : h.Agree R a a := by
  cases a with
  | list i =>
    refine List.forall₂_same.mpr ?_
    intro v hv
    exact hR v (hc.items i v hv)
  | mapping i =>
    refine ⟨rfl, ?_⟩
    intro key
    cases hv : (h.mapping i).get? key with
    | none => exact .none
    | some v => exact .some (hR v (hc.value hv))
  | _ => exact Value.sameObject_refl ha.1

theorem bisimilar_refl (hc : h.Closed) {a : Value} (ha : h.Holds a) : h.Bisimilar a a := by
  refine ⟨fun x y => h.Holds x ∧ x = y, ?_, ha, rfl⟩
  rintro x _ ⟨hx, rfl⟩
  exact agree_refl hc (fun v hv => ⟨hv, rfl⟩) hx

theorem bisimilar_symm {a b : Value} (hab : h.Bisimilar a b) : h.Bisimilar b a := by
  refine ⟨fun x y => h.Bisimilar y x, ?_, hab⟩
  intro x y hxy
  have ha := bisimilar_agree hxy
  cases y with
  | list i =>
    obtain ⟨j, rfl, hl⟩ := agree_list ha
    exact hl.flip
  | mapping i =>
    obtain ⟨j, rfl, hs, hm⟩ := agree_mapping ha
    exact ⟨hs.symm, fun key => optionRel_flip (hm key)⟩
  | _ =>
    have hs := Value.sameObject_symm ((agree_atom rfl).mp ha)
    exact (agree_atom (Value.sameObject_atom hs rfl)).mpr hs

theorem bisimilar_trans {a b c : Value} (hab : h.Bisimilar a b) (hbc : h.Bisimilar b c) :
    h.Bisimilar a c := by
  refine ⟨fun x z => ∃ y, h.Bisimilar x y ∧ h.Bisimilar y z, ?_, b, hab, hbc⟩
  rintro x z ⟨y, hxy, hyz⟩
  have h₁ := bisimilar_agree hxy
  have h₂ := bisimilar_agree hyz
  cases x with
  | list i =>
    obtain ⟨j, rfl, hl⟩ := agree_list h₁
    obtain ⟨k, rfl, hl'⟩ := agree_list h₂
    exact forall₂_trans hl hl'
  | mapping i =>
    obtain ⟨j, rfl, hs, hm⟩ := agree_mapping h₁
    obtain ⟨k, rfl, hs', hm'⟩ := agree_mapping h₂
    exact ⟨hs.trans hs', fun key => optionRel_trans (hm key) (hm' key)⟩
  | _ =>
    have hs := (agree_atom rfl).mp h₁
    have ht := (agree_atom (Value.sameObject_atom (Value.sameObject_symm hs) rfl)).mp h₂
    exact (agree_atom rfl).mpr (Value.sameObject_trans hs ht)

end Heap

end Offside
