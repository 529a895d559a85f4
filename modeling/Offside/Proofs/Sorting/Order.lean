import Offside.Proofs.Sorting

/-!
Sorting orders. Whatever pairs are compared, each is an element with one from before it in the list.
So if every such comparison that gives an answer tells the truth about an order, a result is
ascending in that order; and if each gives one, there is a result.
-/

namespace Offside.Sorting

open scoped List

variable {α β ε : Type} {less : Less α ε} {F : ε → Prop} {R : α → α → Prop} {P P' : β → Prop}
  {items : List α}

theorem obeys_with {F' : ε → Prop} {r : Except ε β} (h : Obeys F P r) (hs : Obeys F' P' r) :
    Obeys F (fun b => P b ∧ P' b) r := by
  cases r with
  | ok b => exact ⟨h, hs⟩
  | error e => exact h

/-- A result satisfies `P`, and what a comparison refused with is permitted. -/
abbrev Grants (F : ε → Prop) (P : β → Prop) : Except (Stopped α ε) β → Prop :=
  Obeys (fun stop => F stop.cause) P

theorem grants_halting {r : Except ε β} (h : Obeys F P r) : Grants F P (halting items r) :=
  obeys_mapError h fun _ he => he

theorem grants_amid {whole : List α → List α} {r : Except (Stopped α ε) β} (h : Grants F P r) :
    Grants F P (amid whole r) :=
  obeys_mapError h fun _ he => he

/-- The truth about a proposition, or a permitted failure. -/
def Decides (F : ε → Prop) (p : Prop) : Except ε Bool → Prop := Obeys F fun v => v = true ↔ p

theorem decides_not {p : Prop} {r : Except ε Bool} (h : Decides F p r) :
    Decides F (¬ p) (not <$> r) := by
  cases r with
  | ok v =>
    have hv : v = true ↔ p := h
    change (!v) = true ↔ ¬ p
    rw [← hv]
    simp
  | error e => exact h

theorem decides_bind {p : Prop} {r : Except ε Bool} {f : Bool → Except ε β} (h : Decides F p r)
    (ht : p → Obeys F P (f true)) (hf : ¬ p → Obeys F P (f false)) : Obeys F P (r >>= f) := by
  refine obeys_bind h fun v hv => ?_
  cases v with
  | true => exact ht (hv.mp rfl)
  | false => exact hf fun hp => Bool.false_ne_true (hv.mpr hp)

/-- Asked of two elements in their order in the list, the comparison says whether the later one
is less. -/
def Tells (F : ε → Prop) (less : Less α ε) (R : α → α → Prop) (a b : α) : Prop :=
  Decides F (¬ R a b) (less b a)

/-- Each element of one list with each of a list behind it. -/
def Across (T : α → α → Prop) (left right : List α) : Prop := ∀ a ∈ left, ∀ b ∈ right, T a b

theorem across_perm {T : α → α → Prop} {left left' right right' : List α} (hl : left' ~ left)
    (hr : right' ~ right) (h : Across T left right) : Across T left' right' :=
  fun a ha b hb => h a (hl.subset ha) b (hr.subset hb)

/-- An order in which elements may share their rank. -/
structure Ranks (R : α → α → Prop) : Prop where
  trans : ∀ {a b c}, R a b → R b c → R a c
  total : ∀ a b, R a b ∨ R b a

theorem Ranks.of_not (hR : Ranks R) {a b : α} (h : ¬ R a b) : R b a :=
  (hR.total a b).resolve_left h

theorem Ranks.flip (hR : Ranks R) : Ranks (flip R) where
  trans hab hbc := hR.trans hbc hab
  total a b := hR.total b a

/-- An element in front of an ordered list, if it is not behind the first one. -/
theorem Ranks.cons (hR : Ranks R) {x y : α} {ys : List α} (hxy : R x y)
    (hys : (y :: ys).Pairwise R) : (x :: y :: ys).Pairwise R := by
  refine List.pairwise_cons.mpr ⟨List.forall_mem_cons.mpr ⟨hxy, fun z hz => ?_⟩, hys⟩
  exact hR.trans hxy ((List.pairwise_cons.mp hys).1 z hz)

theorem Ranks.refl (hR : Ranks R) (a : α) : R a a := (hR.total a a).elim id id

theorem Ranks.head (hR : Ranks R) {xs : List α} (h : xs.Pairwise R) {x : α} (hx : x ∈ xs.head?) :
    ∀ y ∈ xs, R x y := by
  obtain ⟨tail, rfl⟩ := List.head?_eq_some_iff.mp hx
  exact List.forall_mem_cons.mpr ⟨hR.refl x, (List.pairwise_cons.mp h).1⟩

theorem Ranks.last (hR : Ranks R) {xs : List α} (h : xs.Pairwise R) {x : α}
    (hx : x ∈ xs.getLast?) : ∀ y ∈ xs, R y x := by
  rw [← List.head?_reverse] at hx
  exact fun y hy => hR.flip.head (List.pairwise_reverse.mpr h) hx y (List.mem_reverse.mpr hy)

/-! ### Runs -/

theorem ascend_ordered (hR : Ranks R) {last : α} {run xs : List α}
    (hrun : (last :: run).Pairwise (flip R))
    (hT : ((last :: run).reverse ++ xs).Pairwise (Tells F less R)) :
    Obeys F (fun r => r.1.Pairwise R ∧ r.1 ++ r.2 = (last :: run).reverse ++ xs)
      (ascend less last (last :: run) xs) := by
  induction xs generalizing last run with
  | nil => exact ⟨List.pairwise_reverse.mpr hrun, rfl⟩
  | cons x xs ih =>
    have hlast : Tells F less R last x :=
      (List.pairwise_append.mp hT).2.2 last (by simp) x List.mem_cons_self
    rw [ascend]
    refine decides_bind hlast (fun _ => ⟨List.pairwise_reverse.mpr hrun, rfl⟩) fun hx => ?_
    have heq : (x :: last :: run).reverse ++ xs = (last :: run).reverse ++ x :: xs := by simp
    rw [← heq] at hT ⊢
    exact ih (hR.flip.cons (not_not.mp hx) hrun) hT

theorem descend_ordered (hR : Ranks R) {last : α} {run xs : List α}
    (hrun : (last :: run).Pairwise R)
    (hT : ((last :: run).reverse ++ xs).Pairwise (Tells F less R)) :
    Obeys F (fun r => r.1.Pairwise R ∧ r.1.reverse ++ r.2 = (last :: run).reverse ++ xs)
      (descend less last (last :: run) xs) := by
  induction xs generalizing last run with
  | nil => exact ⟨hrun, rfl⟩
  | cons x xs ih =>
    have hlast : Tells F less R last x :=
      (List.pairwise_append.mp hT).2.2 last (by simp) x List.mem_cons_self
    rw [descend]
    refine decides_bind hlast (fun hx => ?_) fun _ => ⟨hrun, rfl⟩
    have heq : (x :: last :: run).reverse ++ xs = (last :: run).reverse ++ x :: xs := by simp
    rw [← heq] at hT ⊢
    exact ih (hR.cons (hR.of_not hx) hrun) hT

/-- The leading run holds the leading elements. -/
theorem leadingRun_ordered (hR : Ranks R) {xs : List α} (hT : xs.Pairwise (Tells F less R)) :
    Obeys F (fun r => r.1.Pairwise R ∧ ∃ front, front ~ r.1 ∧ front ++ r.2 = xs)
      (leadingRun less xs) := by
  rcases xs with _ | ⟨x, _ | ⟨y, rest⟩⟩
  · exact ⟨.nil, [], .refl _, rfl⟩
  · exact ⟨List.pairwise_singleton _ _, [x], .refl _, rfl⟩
  · have hxy : Tells F less R x y := (List.pairwise_cons.mp hT).1 y List.mem_cons_self
    rw [leadingRun]
    refine decides_bind hxy (fun hdown => ?_) fun hup => ?_
    · have hrun : [y, x].Pairwise R := List.pairwise_pair.mpr (hR.of_not hdown)
      exact obeys_imp (descend_ordered hR hrun hT) fun r h =>
        ⟨h.1, _, r.1.reverse_perm, h.2⟩
    · have hrun : [y, x].Pairwise (flip R) := List.pairwise_pair.mpr (not_not.mp hup)
      exact obeys_imp (ascend_ordered hR hrun hT) fun r h => ⟨h.1, _, .refl _, h.2⟩

/-! ### Searching -/

/-- So many elements of a list satisfy `p`, all of them before those that do not. -/
structure Splits (p : α → Prop) (xs : List α) (n : Nat) : Prop where
  bound : n ≤ xs.length
  iff : ∀ i (h : i < xs.length), p xs[i] ↔ i < n

theorem Splits.take {p : α → Prop} {xs : List α} {n : Nat} (h : Splits p xs n) :
    ∀ x ∈ xs.take n, p x := by
  intro x hx
  obtain ⟨i, hi, rfl⟩ := List.mem_take_iff_getElem.mp hx
  exact (h.iff i (by omega)).mpr (by omega)

theorem Splits.drop {p : α → Prop} {xs : List α} {n : Nat} (h : Splits p xs n) :
    ∀ x ∈ xs.drop n, ¬ p x := by
  intro x hx hp
  obtain ⟨i, hi, rfl⟩ := List.mem_drop_iff_getElem.mp hx
  have := (h.iff (n + i) (by omega)).mp hp
  omega

theorem splits_exists {p : α → Prop} {xs : List α} (h : xs.Pairwise fun a b => p b → p a) :
    ∃ n, Splits p xs n := by
  induction xs with
  | nil => exact ⟨0, le_refl _, fun i hi => absurd hi (Nat.not_lt_zero i)⟩
  | cons x xs ih =>
    obtain ⟨hx, hxs⟩ := List.pairwise_cons.mp h
    by_cases hp : p x
    · obtain ⟨n, hn⟩ := ih hxs
      refine ⟨n + 1, Nat.succ_le_succ hn.bound, fun i hi => ?_⟩
      cases i with
      | zero => simpa using hp
      | succ i => simpa using hn.iff i (Nat.lt_of_succ_lt_succ hi)
    · refine ⟨0, Nat.zero_le _, fun i hi => ?_⟩
      cases i with
      | zero => simpa using hp
      | succ i => simpa using fun hi => hp (hx _ (List.getElem_mem _) hi)

section

variable {p : α → Prop} {passes : α → Except ε Bool} {xs : List α} {n : Nat}

theorem halve_place (hp : ∀ x ∈ xs, Decides F (p x) (passes x)) (hs : Splits p xs n)
    (middle : Middle) {fuel low high : Nat} (hlow : low ≤ n) (hhigh : n ≤ high)
    (hlen : high ≤ xs.length) (hfuel : high ≤ low + fuel) :
    Obeys F (· = n) (halve middle passes xs fuel low high) := by
  induction fuel generalizing low high with
  | zero => exact Nat.le_antisymm hlow (hhigh.trans hfuel)
  | succ fuel ih =>
    rw [halve]
    refine obeys_ite (fun hlt => ?_) fun hge => Nat.le_antisymm hlow (by omega)
    obtain ⟨hfrom, hto⟩ := middle_bounds middle hlt
    have hin : middle.of low high < xs.length := by omega
    dsimp only
    rw [List.getElem?_eq_getElem hin]
    refine decides_bind (hp _ (List.getElem_mem hin)) (fun hyes => ?_) fun hno => ?_
    · exact ih ((hs.iff _ hin).mp hyes) hhigh hlen (by omega)
    · exact ih hlow (Nat.le_of_not_lt fun hn => hno ((hs.iff _ hin).mpr hn)) (by omega) (by omega)

theorem leap_place (hp : ∀ x ∈ xs, Decides F (p x) (passes x)) (hs : Splits p xs n)
    {last next : Nat} (hlast : last < n) :
    Obeys F (fun r => r.1 < n ∧ n ≤ r.2 ∧ r.2 ≤ xs.length) (leap passes xs last next) := by
  fun_induction leap passes xs last next with
  | case1 last next hin ih =>
    refine decides_bind (hp _ (List.getElem_mem hin)) (fun hyes => ?_) fun hno => ?_
    · exact ih ((hs.iff _ hin).mp hyes)
    · exact ⟨hlast, Nat.le_of_not_lt fun hn => hno ((hs.iff _ hin).mpr hn), hin.le⟩
  | case2 last next hin => exact ⟨hlast, hs.bound, le_refl _⟩

theorem gallop_place (hp : ∀ x ∈ xs, Decides F (p x) (passes x)) (hs : Splits p xs n)
    (middle : Middle) : Obeys F (· = n) (gallop middle passes xs) := by
  cases xs with
  | nil => exact (Nat.le_zero.mp hs.bound).symm
  | cons x rest =>
    have hfirst : p x ↔ 0 < n := hs.iff 0 (Nat.succ_pos _)
    rw [gallop]
    refine decides_bind (hp x List.mem_cons_self) (fun hyes => ?_) fun hno => ?_
    · refine obeys_bind (leap_place hp hs (hfirst.mp hyes)) fun r hr => ?_
      obtain ⟨hlast, hnext, hlen⟩ := hr
      exact halve_place hp hs middle hlast hnext hlen (by omega)
    · exact (Nat.eq_zero_of_not_pos fun hn => hno (hfirst.mpr hn)).symm

end

/-! ### Insertion -/

theorem insertIdx_split (x : α) {xs : List α} {n : Nat} (hn : n ≤ xs.length) :
    xs.insertIdx n x = xs.take n ++ x :: xs.drop n := by
  induction xs generalizing n with
  | nil =>
    obtain rfl := Nat.le_zero.mp hn
    rfl
  | cons y ys ih =>
    cases n with
    | zero => rfl
    | succ n => simp [ih (Nat.le_of_succ_le_succ hn)]

theorem insert_ordered (hR : Ranks R) {run : List α} {x : α} (hrun : run.Pairwise R)
    (hT : ∀ y ∈ run, Tells F less R y x) :
    Obeys F (fun ys => ys.Pairwise R) (insert less run x) := by
  have hdown : run.Pairwise fun a b => R b x → R a x := hrun.imp fun hab hbx => hR.trans hab hbx
  obtain ⟨n, hn⟩ := splits_exists hdown
  have hp : ∀ y ∈ run, Decides F (R y x) (not <$> less x y) := fun y hy => by
    simpa using decides_not (hT y hy)
  refine obeys_bind (halve_place hp hn .upper (Nat.zero_le _) hn.bound le_rfl (by omega))
    fun place hplace => ?_
  subst hplace
  change (run.insertIdx place x).Pairwise R
  rw [insertIdx_split x hn.bound]
  have hsplit := hrun
  rw [← List.take_append_drop place run] at hsplit
  obtain ⟨htake, hdrop, hacross⟩ := List.pairwise_append.mp hsplit
  refine List.pairwise_append.mpr ⟨htake, List.pairwise_cons.mpr ⟨?_, hdrop⟩, ?_⟩
  · exact fun y hy => hR.of_not (hn.drop y hy)
  · exact fun y hy => List.forall_mem_cons.mpr ⟨hn.take y hy, hacross y hy⟩

theorem insertAll_ordered (hR : Ranks R) {run xs : List α} (hrun : run.Pairwise R)
    (hT : xs.Pairwise (Tells F less R)) (hacross : Across (Tells F less R) run xs) :
    Grants F (fun ys => ys.Pairwise R) (insertAll less run xs) := by
  induction xs generalizing run with
  | nil => exact hrun
  | cons x xs ih =>
    obtain ⟨hx, hxs⟩ := List.pairwise_cons.mp hT
    have hone := insert_ordered hR hrun fun y hy => hacross y hy x List.mem_cons_self
    have hboth := obeys_with hone (insert_perm run x)
    refine obeys_bind (grants_halting hboth) fun ys hys => ih hys.1 hxs ?_
    refine across_perm hys.2 (.refl _) ?_
    exact List.forall_mem_cons.mpr ⟨hx, fun y hy z hz => hacross y hy z (List.mem_cons_of_mem x hz)⟩

/-- A run is made of the leading elements, all of which stand before the rest. -/
theorem takeRun_ordered (hR : Ranks R) (least : Nat) {xs : List α}
    (hT : xs.Pairwise (Tells F less R)) :
    Grants F (fun r => r.1.Pairwise R ∧ ∃ front, front ~ r.1 ∧ front ++ r.2 = xs)
      (takeRun less least xs) := by
  refine obeys_bind (grants_halting (leadingRun_ordered hR hT)) fun r hr => ?_
  obtain ⟨run, rest⟩ := r
  obtain ⟨hrun, front, hfront, rfl⟩ := hr
  obtain ⟨-, hrest, hacross⟩ := List.pairwise_append.mp hT
  have htake : (rest.take (least - run.length)).Sublist rest := List.take_sublist _ _
  have hmore := insertAll_ordered hR hrun (hrest.sublist htake) fun a ha b hb =>
    hacross a (hfront.symm.subset ha) b (htake.subset hb)
  refine obeys_bind (grants_amid (obeys_with hmore (insertAll_perm run _))) fun ys hys => ?_
  refine ⟨hys.1, front ++ rest.take (least - run.length), ?_, ?_⟩
  · exact (hfront.append_right _).trans hys.2.symm
  · rw [List.append_assoc, List.take_append_drop]

/-! ### Merging -/

/-- The order in which a direction puts elements. -/
def Direction.order (d : Direction) (R : α → α → Prop) : α → α → Prop :=
  match d with
  | .forward => R
  | .backward => flip R

namespace Merging

/-- Both runs ascend, what is merged stands before them, and nothing on the long side belongs
behind the last element of the short one. -/
structure Ordered (S : α → α → Prop) (m : Merging α) : Prop where
  merged : m.merged.Pairwise (flip S)
  short : m.short.Pairwise S
  long : m.long.Pairwise S
  placed : ∀ a ∈ m.merged, ∀ b ∈ m.short ++ m.long, S a b
  last : ∀ z ∈ m.short.getLast?, ∀ y ∈ m.long, S y z

/-- A merge that goes on in order, with `n` elements at most. -/
structure Ready (F : ε → Prop) (d : Direction) (less : Less α ε) (S : α → α → Prop) (n : Nat)
    (m : Merging α) : Prop extends m.Ordered S where
  decides : ∀ x ∈ m.short, ∀ y ∈ m.long, Decides F (¬ S x y) (d.longFirst less x y)
  room : m.short.length + m.long.length ≤ n

variable {d : Direction} {S : α → α → Prop} {n k : Nat} {m : Merging α} {x y : α}
  {short long merged : List α}

theorem Ready.mono (h : m.Ready F d less S n) (hn : n ≤ k) : m.Ready F d less S k :=
  { h with room := h.room.trans hn }

theorem Ordered.short_moved (h : Ordered S ⟨x :: short, long, merged⟩) (hx : ∀ y ∈ long, S x y) :
    Ordered S ⟨short, long, x :: merged⟩ where
  merged := List.pairwise_cons.mpr ⟨fun a ha => h.placed a ha x (by simp), h.merged⟩
  short := (List.pairwise_cons.mp h.short).2
  long := h.long
  placed := by
    refine List.forall_mem_cons.mpr ⟨fun b hb => ?_, fun a ha b hb => h.placed a ha b ?_⟩
    · exact (List.mem_append.mp hb).elim ((List.pairwise_cons.mp h.short).1 b) (hx b)
    · exact List.mem_cons_of_mem x hb
  last := by
    intro z hz
    refine h.last z ?_
    rw [Option.mem_def] at hz ⊢
    rw [List.getLast?_cons, hz]
    rfl

theorem Ordered.long_moved (h : Ordered S ⟨short, y :: long, merged⟩) (hy : ∀ x ∈ short, S y x) :
    Ordered S ⟨short, long, y :: merged⟩ where
  merged := List.pairwise_cons.mpr ⟨fun a ha => h.placed a ha y (by simp), h.merged⟩
  short := h.short
  long := (List.pairwise_cons.mp h.long).2
  placed := by
    refine List.forall_mem_cons.mpr ⟨fun b hb => ?_, fun a ha b hb => h.placed a ha b ?_⟩
    · exact (List.mem_append.mp hb).elim (hy b) ((List.pairwise_cons.mp h.long).1 b)
    · exact (List.mem_append.mp hb).elim (List.mem_append_left _) fun hb =>
        List.mem_append_right _ (List.mem_cons_of_mem y hb)
  last := fun z hz b hb => h.last z hz b (List.mem_cons_of_mem y hb)

theorem Ordered.shorts_moved {xs : List α} (h : Ordered S ⟨xs ++ short, long, merged⟩)
    (hxs : ∀ x ∈ xs, ∀ y ∈ long, S x y) : Ordered S ⟨short, long, xs.reverseAux merged⟩ := by
  induction xs generalizing merged with
  | nil => exact h
  | cons x xs ih =>
    obtain ⟨hx, hxs⟩ := List.forall_mem_cons.mp hxs
    exact ih (h.short_moved hx) hxs

theorem Ordered.longs_moved {ys : List α} (h : Ordered S ⟨short, ys ++ long, merged⟩)
    (hys : ∀ y ∈ ys, ∀ x ∈ short, S y x) : Ordered S ⟨short, long, ys.reverseAux merged⟩ := by
  induction ys generalizing merged with
  | nil => exact h
  | cons y ys ih =>
    obtain ⟨hy, hys⟩ := List.forall_mem_cons.mp hys
    exact ih (h.long_moved hy) hys

/-- The first elements of two runs, in order. -/
theorem Ordered.first_short (hS : Ranks S) (h : Ordered S ⟨x :: short, y :: long, merged⟩)
    (hxy : S x y) : ∀ b ∈ y :: long, S x b :=
  List.forall_mem_cons.mpr ⟨hxy, fun b hb => hS.trans hxy ((List.pairwise_cons.mp h.long).1 b hb)⟩

theorem Ordered.first_long (hS : Ranks S) (h : Ordered S ⟨x :: short, y :: long, merged⟩)
    (hyx : S y x) : ∀ a ∈ x :: short, S y a :=
  List.forall_mem_cons.mpr ⟨hyx, fun a ha => hS.trans hyx ((List.pairwise_cons.mp h.short).1 a ha)⟩

theorem finish_ordered (h : m.Ordered S) (hd : m.isDecided = true) :
    m.finish.Pairwise S := by
  obtain ⟨short, long, merged⟩ := m
  have hmerged : merged.reverse.Pairwise S := List.pairwise_reverse.mpr h.merged
  have hplaced (rest : List α) (hrest : ∀ b ∈ rest, b ∈ short ++ long) (ho : rest.Pairwise S) :
      (merged.reverseAux rest).Pairwise S := by
    rw [List.reverseAux_eq]
    refine List.pairwise_append.mpr ⟨hmerged, ho, fun a ha b hb => ?_⟩
    exact h.placed a (List.mem_reverse.mp ha) b (hrest b hb)
  rcases short with _ | ⟨x, _ | ⟨x', short⟩⟩
  · exact hplaced ([] ++ long) (fun b hb => hb) h.long
  · refine hplaced (long ++ [x]) (fun b hb => ?_) ?_
    · exact List.mem_append.mpr (List.mem_append.mp hb).symm
    · exact List.pairwise_append.mpr ⟨h.long, List.pairwise_singleton _ _, fun b hb a ha =>
        List.mem_singleton.mp ha ▸ h.last x rfl b hb⟩
  · rcases long with _ | ⟨y, long⟩
    · exact hplaced _ (fun b hb => hb) (by simpa using h.short)
    · cases hd

theorem undecided (hd : ¬ m.isDecided = true) :
    ∃ x x' short y long, m.short = x :: x' :: short ∧ m.long = y :: long := by
  obtain ⟨short, long, merged⟩ := m
  rcases short with _ | ⟨x, _ | ⟨x', short⟩⟩
  · exact absurd rfl hd
  · exact absurd rfl hd
  · rcases long with _ | ⟨y, long⟩
    · exact absurd rfl hd
    · exact ⟨x, x', short, y, long, rfl, rfl⟩

theorem step_ready (hS : Ranks S) (h : Ready F d less S (n + 1) ⟨x :: short, y :: long, merged⟩) :
    Obeys F (fun r => r.2.Ready F d less S n)
      (step d less ⟨x :: short, y :: long, merged⟩) := by
  have hroom := h.room
  simp only [List.length_cons] at hroom
  refine decides_bind (h.decides x List.mem_cons_self y List.mem_cons_self) (fun hlong => ?_)
    fun hshort => ?_
  · refine ⟨h.long_moved (h.first_long hS (hS.of_not hlong)), fun a ha b hb => ?_, ?_⟩
    · exact h.decides a ha b (List.mem_cons_of_mem y hb)
    · simp only [List.length_cons]
      omega
  · refine ⟨h.short_moved (h.first_short hS (not_not.mp hshort)), fun a ha b hb => ?_, ?_⟩
    · exact h.decides a (List.mem_cons_of_mem x ha) b hb
    · simp only [List.length_cons]
      omega

theorem sweep_ready (hS : Ranks S) (side : Side)
    (h : Ready F d less S (n + 1) ⟨x :: short, y :: long, merged⟩) :
    Obeys F (fun r => r.2.Ready F d less S n)
      (sweep d less side ⟨x :: short, y :: long, merged⟩) := by
  have hroom := h.room
  simp only [List.length_cons] at hroom
  cases side with
  | short =>
    have hp : ∀ a ∈ x :: short, Decides F (S a y) (not <$> d.longFirst less a y) := fun a ha => by
      simpa using decides_not (h.decides a ha y List.mem_cons_self)
    obtain ⟨k, hk⟩ := splits_exists (h.short.imp fun hab hby => hS.trans hab hby)
    refine obeys_bind (gallop_place hp hk d.middle) fun count hcount => ?_
    subst hcount
    have hmoved : Ordered S
        ⟨(x :: short).drop count, y :: long, ((x :: short).take count).reverseAux merged⟩ := by
      refine Ordered.shorts_moved ?_ fun a ha b hb => ?_
      · rw [List.take_append_drop]
        exact h.toOrdered
      · rcases List.mem_cons.mp hb with rfl | hb
        · exact hk.take a ha
        · exact hS.trans (hk.take a ha) ((List.pairwise_cons.mp h.long).1 b hb)
    refine ⟨hmoved.long_moved fun a ha => hS.of_not (hk.drop a ha), fun a ha b hb => ?_, ?_⟩
    · exact h.decides a (List.mem_of_mem_drop ha) b (List.mem_cons_of_mem y hb)
    · simp only [List.length_drop, List.length_cons]
      omega
  | long =>
    have hdown : (y :: long).Pairwise fun a b => ¬ S x b → ¬ S x a :=
      h.long.imp fun hab hxb hxa => hxb (hS.trans hxa hab)
    obtain ⟨k, hk⟩ := splits_exists hdown
    have hp := h.decides x List.mem_cons_self
    refine obeys_bind (gallop_place hp hk d.middle) fun count hcount => ?_
    subst hcount
    have hmoved : Ordered S
        ⟨x :: short, (y :: long).drop count, ((y :: long).take count).reverseAux merged⟩ := by
      refine Ordered.longs_moved ?_ fun b hb a ha => ?_
      · rw [List.take_append_drop]
        exact h.toOrdered
      · have hbx := hS.of_not (hk.take b hb)
        rcases List.mem_cons.mp ha with rfl | ha
        · exact hbx
        · exact hS.trans hbx ((List.pairwise_cons.mp h.short).1 a ha)
    refine ⟨hmoved.short_moved fun b hb => not_not.mp (hk.drop b hb), fun a ha b hb => ?_, ?_⟩
    · exact h.decides a (List.mem_cons_of_mem x ha) b (List.mem_of_mem_drop hb)
    · simp only [List.length_drop, List.length_cons]
      omega

end Merging

section

variable {d : Direction} {S : α → α → Prop}

theorem advance_ordered (hS : Ranks S) {fuel : Nat} (threshold : Nat) (pace : Pace)
    {m : Merging α} (h : m.Ready F d less S fuel) :
    Grants F (fun r => r.2.Pairwise S) (advance d less fuel threshold pace m) := by
  induction fuel generalizing threshold pace m with
  | zero =>
    have hempty : m.short = [] := List.length_eq_zero_iff.mp (by have := h.room; omega)
    refine Merging.finish_ordered h.toOrdered ?_
    rw [Merging.isDecided, hempty]
  | succ fuel ih =>
    rw [advance.eq_def]
    refine obeys_ite (fun hd => Merging.finish_ordered h.toOrdered hd) fun hd => ?_
    have hsweep {m : Merging α} (h : m.Ready F d less S (fuel + 1)) (hd : ¬ m.isDecided = true)
        (side : Side) : Obeys F (fun r => r.2.Ready F d less S fuel) (m.sweep d less side) := by
      obtain ⟨short, long, merged⟩ := m
      obtain ⟨x, x', short, y, long, rfl, rfl⟩ := Merging.undecided hd
      exact Merging.sweep_ready hS side h
    cases pace with
    | single side row =>
      obtain ⟨short, long, merged⟩ := m
      obtain ⟨x, x', short, y, long, rfl, rfl⟩ := Merging.undecided hd
      exact obeys_bind (grants_halting (Merging.step_ready hS h)) fun r hr => ih _ _ hr
    | stretches =>
      refine obeys_bind (grants_halting (hsweep h hd d.firstSide)) fun r hr => ?_
      refine obeys_ite (fun hd => Merging.finish_ordered hr.toOrdered hd) fun hd => ?_
      have hother := hsweep (hr.mono (Nat.le_succ fuel)) hd d.firstSide.other
      refine obeys_bind (grants_halting hother) fun r' hr' => ?_
      refine obeys_ite (fun hd => Merging.finish_ordered hr'.toOrdered hd) fun _ => ?_
      exact obeys_ite (fun _ => ih _ _ hr') fun _ => ih _ _ hr'

theorem mergeSides_ordered (hS : Ranks S) (threshold : Nat) {short long : List α}
    (hshort : short.Pairwise S) (hlong : long.Pairwise S)
    (hfirst : ∀ y ∈ long.head?, ∀ x ∈ short, S y x)
    (hlast : ∀ z ∈ short.getLast?, ∀ y ∈ long, S y z)
    (hdecides : ∀ x ∈ short, ∀ y ∈ long, Decides F (¬ S x y) (d.longFirst less x y)) :
    Grants F (fun r => r.2.Pairwise S) (mergeSides d less threshold short long) := by
  have hstart : Merging.Ready F d less S (short.length + long.length) ⟨short, long, []⟩ :=
    ⟨⟨.nil, hshort, hlong, nofun, hlast⟩, hdecides, le_rfl⟩
  cases long with
  | nil => exact advance_ordered hS _ _ hstart
  | cons y long =>
    refine advance_ordered hS _ _ ⟨hstart.long_moved (hfirst y rfl), fun a ha b hb => ?_, ?_⟩
    · exact hdecides a ha b (List.mem_cons_of_mem y hb)
    · simp only [List.drop_succ_cons, List.drop_zero, List.length_cons]
      omega

end

/-- The last element of the left run belongs behind the right one, the first element of the right
run in front of the left one. -/
structure Overlap (R : α → α → Prop) (left right : List α) : Prop where
  ascends : left.Pairwise R ∧ right.Pairwise R
  first : ∀ y ∈ right.head?, ∀ x ∈ left, R y x
  last : ∀ x ∈ left.getLast?, ∀ y ∈ right, R y x

theorem mergeOverlap_ordered (hR : Ranks R) (threshold : Nat) {left right : List α}
    (h : Overlap R left right) (hT : Across (Tells F less R) left right) :
    Grants F (fun r => r.2.Pairwise R) (mergeOverlap less threshold left right) := by
  refine obeys_ite (fun _ => ?_) fun _ => ?_
  · exact mergeSides_ordered (d := .forward) hR threshold h.ascends.1 h.ascends.2
      h.first h.last hT
  · have hmerge : Grants F (fun r => r.2.Pairwise (flip R))
        (mergeSides .backward less threshold right.reverse left.reverse) := by
      refine mergeSides_ordered hR.flip threshold (List.pairwise_reverse.mpr h.ascends.2)
        (List.pairwise_reverse.mpr h.ascends.1) ?_ ?_ ?_
      · intro x hx y hy
        rw [List.head?_reverse] at hx
        exact h.last x hx y (List.mem_reverse.mp hy)
      · intro y hy x hx
        rw [List.getLast?_reverse] at hy
        exact h.first y hy x (List.mem_reverse.mp hx)
      · exact fun y hy x hx => hT x (List.mem_reverse.mp hx) y (List.mem_reverse.mp hy)
    exact obeys_bind (grants_amid hmerge) fun r hr => List.pairwise_reverse.mpr hr

theorem merge_ordered (hR : Ranks R) (threshold : Nat) {left right : List α}
    (hleft : left.Pairwise R) (hright : right.Pairwise R)
    (hT : Across (Tells F less R) left right) :
    Grants F (fun r => r.2.Pairwise R) (merge less threshold left right) := by
  unfold merge
  split
  · exact hleft
  · next first hfirst =>
    have hstart := hR.head hright hfirst
    have hp : ∀ x ∈ left, Decides F (R x first) (not <$> less first x) := fun x hx => by
      simpa using decides_not (hT x hx first (List.mem_of_mem_head? hfirst))
    obtain ⟨n, hn⟩ := splits_exists (hleft.imp fun hab hb => hR.trans hab hb)
    refine obeys_bind (grants_halting (gallop_place hp hn .upper)) fun inPlace hinPlace => ?_
    subst hinPlace
    rw [← List.take_append_drop inPlace left] at hleft
    obtain ⟨htake, hdrop, hacross⟩ := List.pairwise_append.mp hleft
    have hbelow : ∀ a ∈ left.take inPlace, ∀ b ∈ right, R a b :=
      fun a ha b hb => hR.trans (hn.take a ha) (hstart b hb)
    split
    · next hnone =>
      rw [List.getLast?_eq_none_iff] at hnone
      have hall : left.take inPlace = left := by
        conv_rhs => rw [← List.take_append_drop inPlace left, hnone, List.append_nil]
      rw [hall] at htake hbelow
      exact List.pairwise_append.mpr ⟨htake, hright, hbelow⟩
    · next last hlast =>
      have hlater := hR.last hdrop hlast
      have hin : last ∈ left := List.mem_of_mem_drop (List.mem_of_mem_getLast? hlast)
      have hp : ∀ y ∈ right.reverse, Decides F (R last y) (not <$> less y last) := fun y hy => by
        simpa using decides_not (hT last hin y (List.mem_reverse.mp hy))
      obtain ⟨k, hk⟩ := splits_exists ((List.pairwise_reverse.mpr hright).imp
        fun hba hb => hR.trans hb hba)
      refine obeys_bind (grants_halting (gallop_place hp hk .lower)) fun above habove => ?_
      subst habove
      have hback := back_split right above
      have hlow : ∀ y ∈ (right.reverse.drop above).reverse, R y last :=
        fun y hy => hR.of_not (hk.drop y (List.mem_reverse.mp hy))
      have hhigh : ∀ y ∈ (right.reverse.take above).reverse, R last y :=
        fun y hy => hk.take y (List.mem_reverse.mp hy)
      generalize (right.reverse.drop above).reverse = low at hback hlow ⊢
      generalize (right.reverse.take above).reverse = high at hback hhigh ⊢
      subst hback
      obtain ⟨hlows, hhighs, hlowhigh⟩ := List.pairwise_append.mp hright
      have hover : Overlap R (left.drop inPlace) low := by
        refine ⟨⟨hdrop, hlows⟩, fun y hy x hx => ?_, fun x hx => ?_⟩
        · obtain ⟨tail, rfl⟩ := List.head?_eq_some_iff.mp hy
          obtain rfl : y = first := Option.some_inj.mp hfirst
          exact hR.of_not (hn.drop x hx)
        · obtain rfl : last = x := Option.some_inj.mp (hlast.symm.trans hx)
          exact hlow
      have hmerge : Grants F (fun r => r.2.Pairwise R)
          (mergeOverlap less threshold (left.drop inPlace) low) :=
        mergeOverlap_ordered hR threshold hover
          fun a ha b hb => hT a (List.mem_of_mem_drop ha) b (List.mem_append_left _ hb)
      have hboth := obeys_with hmerge (mergeOverlap_perm threshold _ _)
      refine obeys_bind (grants_amid hboth) fun r hr => ?_
      obtain ⟨hsorted, hperm⟩ := hr
      refine List.pairwise_append.mpr ⟨List.pairwise_append.mpr ⟨htake, hsorted, ?_⟩, hhighs, ?_⟩
      · intro a ha b hb
        rcases List.mem_append.mp (hperm.subset hb) with hb | hb
        · exact hacross a ha b hb
        · exact hbelow a ha b (List.mem_append_left _ hb)
      · intro a ha b hb
        rcases List.mem_append.mp ha with ha | ha
        · exact hbelow a ha b (List.mem_append_right _ hb)
        · rcases List.mem_append.mp (hperm.subset ha) with ha | ha
          · exact hR.trans (hlater a ha) (hhigh b hb)
          · exact hlowhigh a ha b hb

/-! ### Sorting -/

/-- Ascending runs, the last one first. -/
structure Stacked (F : ε → Prop) (less : Less α ε) (R : α → α → Prop) (runs : List (List α)) :
    Prop where
  ascend : ∀ run ∈ runs, run.Pairwise R
  told : runs.Pairwise fun later earlier => Across (Tells F less R) earlier later

variable {run left right xs : List α} {runs : List (List α)} {waiting : List (Waiting α)}

theorem Stacked.cons (h : Stacked F less R runs) (hrun : run.Pairwise R)
    (hT : ∀ earlier ∈ runs, Across (Tells F less R) earlier run) :
    Stacked F less R (run :: runs) :=
  ⟨List.forall_mem_cons.mpr ⟨hrun, h.ascend⟩, List.pairwise_cons.mpr ⟨hT, h.told⟩⟩

theorem Stacked.head (h : Stacked F less R (run :: runs)) :
    run.Pairwise R ∧ (∀ earlier ∈ runs, Across (Tells F less R) earlier run) ∧
      Stacked F less R runs := by
  obtain ⟨hrun, hrest⟩ := List.forall_mem_cons.mp h.ascend
  obtain ⟨hT, htold⟩ := List.pairwise_cons.mp h.told
  exact ⟨hrun, hT, hrest, htold⟩

/-- Two runs next to each other become one. -/
theorem Stacked.merge (hR : Ranks R) (threshold : Nat)
    (h : Stacked F less R (right :: left :: runs)) :
    Grants F (fun r => Stacked F less R (r.2 :: runs) ∧ r.2 ~ left ++ right)
      (Sorting.merge less threshold left right) := by
  obtain ⟨hright, hTright, hrest⟩ := h.head
  obtain ⟨hleft, hTleft, hruns⟩ := hrest.head
  have hmerge := merge_ordered hR threshold hleft hright (hTright left List.mem_cons_self)
  refine obeys_imp (obeys_with hmerge (merge_perm threshold left right)) fun r hr => ?_
  refine ⟨hruns.cons hr.1 fun earlier he => across_perm (.refl _) hr.2 fun a ha b hb => ?_, hr.2⟩
  rcases List.mem_append.mp hb with hb | hb
  · exact hTleft earlier he a ha b hb
  · exact hTright earlier (List.mem_cons_of_mem left he) a ha b hb

theorem settle_stacked (hR : Ranks R) (depth threshold size : Nat)
    (h : Stacked F less R (run :: waiting.map (·.run))) :
    Grants F (fun r => Stacked F less R (r.2.map (·.run)))
      (settle less depth threshold run size waiting) := by
  induction waiting generalizing threshold run size with
  | nil => exact h
  | cons w rest ih =>
    rw [settle]
    refine obeys_ite (fun _ => ?_) fun _ => h
    exact obeys_bind (grants_amid (h.merge hR threshold)) fun r hr => ih _ _ hr.1

theorem collapse_ordered (hR : Ranks R) (threshold size : Nat)
    (h : Stacked F less R (run :: waiting.map (·.run))) :
    Grants F (fun ys => ys.Pairwise R) (collapse less threshold run size waiting) := by
  fun_induction collapse less threshold run size waiting with
  | case1 threshold run size => exact h.head.1
  | case2 threshold run size w =>
    exact obeys_bind (h.merge hR threshold) fun r hr => hr.1.head.1
  | case3 threshold run size w v rest _ ih =>
    obtain ⟨hrun, hT, hrest⟩ := h.head
    refine obeys_bind (grants_amid (hrest.merge hR threshold)) fun r hr =>
      ih r.1 r.2 (hr.1.cons hrun ?_)
    obtain ⟨hw, hT⟩ := List.forall_mem_cons.mp hT
    obtain ⟨hv, hT⟩ := List.forall_mem_cons.mp hT
    refine List.forall_mem_cons.mpr ⟨across_perm hr.2 (.refl _) fun a ha => ?_, hT⟩
    exact (List.mem_append.mp ha).elim (hv a) (hw a)
  | case4 threshold run size w v rest _ ih =>
    exact obeys_bind (grants_amid (h.merge hR threshold)) fun r hr => ih r.1 r.2 hr.1

theorem sortRuns_ordered (hR : Ranks R) (n fuel threshold start : Nat)
    (h : Stacked F less R (run :: waiting.map (·.run))) (hxs : xs.Pairwise (Tells F less R))
    (hT : Across (Tells F less R) (run ++ held waiting) xs) (hfuel : xs.length ≤ fuel) :
    Grants F (fun ys => ys.Pairwise R) (sortRuns less n fuel threshold start run waiting xs) := by
  induction fuel generalizing threshold start run waiting xs with
  | zero =>
    obtain rfl := List.length_eq_zero_iff.mp (Nat.le_zero.mp hfuel)
    exact collapse_ordered hR _ _ h
  | succ fuel ih =>
    cases xs with
    | nil => exact collapse_ordered hR _ _ h
    | cons x xs =>
      have hnext := takeRun_ordered hR (leastLength n) hxs
      have hboth := obeys_with hnext (takeRun_perm _ (x :: xs))
      refine obeys_bind (grants_amid hboth) fun r hr => ?_
      obtain ⟨next, rest⟩ := r
      obtain ⟨⟨hnext, front, hfront, heq⟩, -, hlength⟩ := hr
      have hsettle := settle_stacked hR (boundaryDepth n start run.length next.length) threshold
        run.length h
      have hboth := obeys_with hsettle (settle_perm _ threshold run run.length waiting)
      refine obeys_bind (grants_amid hboth) fun r hr => ?_
      obtain ⟨hstacked, hheld⟩ := hr
      rw [← heq] at hxs hT
      obtain ⟨-, hrest, hacross⟩ := List.pairwise_append.mp hxs
      have hnextT : Across (Tells F less R) (held r.2) next :=
        across_perm hheld hfront.symm fun a ha b hb => hT a ha b (List.mem_append_left _ hb)
      refine ih _ _ (hstacked.cons hnext fun earlier he a ha => ?_) hrest (fun a ha b hb => ?_) ?_
      · obtain ⟨w, hw, rfl⟩ := List.mem_map.mp he
        exact hnextT a (List.mem_flatMap.mpr ⟨w, hw, ha⟩)
      · rcases List.mem_append.mp ha with ha | ha
        · exact hacross a (hfront.symm.subset ha) b hb
        · exact hT a (hheld.subset ha) b (List.mem_append_right _ hb)
      · have hfrontlen : front.length = next.length := hfront.length_eq
        have hlen := congrArg List.length heq
        simp only [List.length_append, List.length_cons] at hlen hfuel hlength
        omega

/-- Sorting orders by what it is told, if it is not refused; and it is refused only if an element
with one from before it is. -/
theorem sort_ordered (hR : Ranks R) (hT : xs.Pairwise (Tells F less R)) :
    Grants F (fun ys => ys.Pairwise R ∧ ys ~ xs) (sort less xs) := by
  refine obeys_with (obeys_bind (takeRun_ordered hR _ hT) fun r hr => ?_) (sort_perm xs)
  obtain ⟨run, rest⟩ := r
  obtain ⟨hrun, front, hfront, rfl⟩ := hr
  obtain ⟨-, hrest, hacross⟩ := List.pairwise_append.mp hT
  have hstacked : Stacked F less R [run] :=
    ⟨List.forall_mem_singleton.mpr hrun, List.pairwise_singleton _ _⟩
  have hwaiting : Across (Tells F less R) (run ++ held []) rest := by
    rw [held, List.flatMap_nil, List.append_nil]
    exact fun a ha => hacross a (hfront.symm.subset ha)
  exact sortRuns_ordered hR _ _ _ _ hstacked hrest hwaiting (by simp)

end Offside.Sorting
