import Mathlib.Tactic
import Offside.Sorting

/-!
Sorting permutes. Whatever the comparison is, sorting gives the elements of the list in some order,
and it fails only as the comparison of two of its elements does; the elements stand in some order
then, too.
-/

namespace Offside.Sorting

open scoped List

variable {α β γ ε ε' : Type} {less : Less α ε} {F : ε → Prop} {F' : ε' → Prop} {P P' : β → Prop}
  {Q : γ → Prop} {items : List α}

/-- A result satisfies `P`, and a failure is a permitted one. -/
def Obeys (F : ε → Prop) (P : β → Prop) : Except ε β → Prop
  | .ok b => P b
  | .error e => F e

theorem obeys_bind {r : Except ε γ} {f : γ → Except ε β} (h : Obeys F Q r)
    (hf : ∀ c, Q c → Obeys F P (f c)) : Obeys F P (r >>= f) := by
  cases r with
  | ok c => exact hf c h
  | error e => exact h

theorem obeys_mono {G : ε → Prop} {r : Except ε β} (h : Obeys F P r) (hF : ∀ e, F e → G e)
    (hP : ∀ b, P b → P' b) : Obeys G P' r := by
  cases r with
  | ok b => exact hP b h
  | error e => exact hF e h

theorem obeys_imp {r : Except ε β} (h : Obeys F P r) (hP : ∀ b, P b → P' b) : Obeys F P' r :=
  obeys_mono h (fun _ => id) hP

theorem obeys_ite {p : Prop} [Decidable p] {r r' : Except ε β} (h : p → Obeys F P r)
    (k : ¬ p → Obeys F P r') : Obeys F P (if p then r else r') := by
  split
  · exact h ‹_›
  · exact k ‹_›

theorem obeys_mapError {g : ε' → ε} {r : Except ε' β} (h : Obeys F' P r)
    (hg : ∀ e, F' e → F (g e)) : Obeys F P (r.mapError g) := by
  cases r with
  | ok b => exact h
  | error e => exact hg e h

/-- A failure of the comparison. -/
def Refuses (less : Less α ε) (e : ε) : Prop := ∃ x y, less x y = .error e

/-- A result satisfies `P`, and a failure is one of the comparison. -/
abbrev Settles (less : Less α ε) (P : β → Prop) : Except ε β → Prop := Obeys (Refuses less) P

/-- A failure of the comparison, when the elements stand in some order. -/
def Disturbs (less : Less α ε) (items : List α) (stop : Stopped α ε) : Prop :=
  Refuses less stop.cause ∧ stop.items ~ items

/-- A result satisfies `P`, and at a failure of the comparison the elements stand in some order. -/
abbrev Permutes (less : Less α ε) (items : List α) (P : β → Prop) :
    Except (Stopped α ε) β → Prop := Obeys (Disturbs less items) P

theorem permutes_halting {r : Except ε β} (h : Settles less P r) :
    Permutes less items P (halting items r) :=
  obeys_mapError h fun _ he => ⟨he, .refl items⟩

theorem permutes_amid {part : List α} {whole : List α → List α} {r : Except (Stopped α ε) β}
    (h : Permutes less part P r) (hwhole : ∀ xs, xs ~ part → whole xs ~ items) :
    Permutes less items P (amid whole r) :=
  obeys_mapError h fun stop hstop => ⟨hstop.1, hwhole stop.items hstop.2⟩

/-- The elements may be given in any order. -/
theorem permutes_perm {items' : List α} {r : Except (Stopped α ε) β} (h : Permutes less items P r)
    (hperm : items ~ items') : Permutes less items' P r :=
  obeys_mono h (fun _ hstop => ⟨hstop.1, hstop.2.trans hperm⟩) fun _ => id

theorem settles_less (x y : α) : Settles less (fun _ => True) (less x y) := by
  cases h : less x y with
  | ok b => trivial
  | error e => exact ⟨x, y, h⟩

/-- A test that fails only as the comparison does. -/
def Tests (less : Less α ε) (passes : α → Except ε Bool) : Prop :=
  ∀ x, Settles less (fun _ => True) (passes x)

theorem tests_not {passes : α → Except ε Bool} (h : Tests less passes) :
    Tests less fun x => not <$> passes x := by
  intro x
  change Settles less _ (not <$> passes x)
  have hx := h x
  cases hp : passes x with
  | ok b => trivial
  | error e =>
    rw [hp] at hx
    exact hx

/-! ### Runs -/

theorem ascend_perm (last : α) (run xs : List α) :
    Settles less (fun r => r.1 ++ r.2 ~ run ++ xs ∧ run.length ≤ r.1.length)
      (ascend less last run xs) := by
  induction xs generalizing last run with
  | nil => exact ⟨run.reverse_perm.append_right [], (run.length_reverse).ge⟩
  | cons x xs ih =>
    rw [ascend]
    refine obeys_bind (settles_less x last) fun b _ => obeys_ite (fun _ => ?_) fun _ => ?_
    · exact ⟨run.reverse_perm.append_right _, (run.length_reverse).ge⟩
    · refine obeys_imp (ih x (x :: run)) fun r h => ⟨?_, (Nat.le_succ _).trans h.2⟩
      exact h.1.trans List.perm_middle.symm

theorem descend_perm (last : α) (run xs : List α) :
    Settles less (fun r => r.1 ++ r.2 ~ run ++ xs ∧ run.length ≤ r.1.length)
      (descend less last run xs) := by
  induction xs generalizing last run with
  | nil => exact ⟨.refl _, le_refl _⟩
  | cons x xs ih =>
    rw [descend]
    refine obeys_bind (settles_less x last) fun b _ => obeys_ite (fun _ => ?_) fun _ => ?_
    · refine obeys_imp (ih x (x :: run)) fun r h => ⟨?_, (Nat.le_succ _).trans h.2⟩
      exact h.1.trans List.perm_middle.symm
    · exact ⟨.refl _, le_refl _⟩

/-- The leading run has at least one element, if there is one. -/
theorem leadingRun_perm (xs : List α) :
    Settles less (fun r => r.1 ++ r.2 ~ xs ∧ min 1 xs.length ≤ r.1.length)
      (leadingRun less xs) := by
  rcases xs with _ | ⟨x, _ | ⟨y, rest⟩⟩
  · exact ⟨.refl _, le_refl _⟩
  · exact ⟨.refl _, le_refl _⟩
  · have hswap : [y, x] ++ rest ~ x :: y :: rest := List.Perm.swap x y rest
    have hlength {k : Nat} (h : 2 ≤ k) : min 1 (x :: y :: rest).length ≤ k :=
      (Nat.min_le_left _ _).trans ((Nat.le_succ 1).trans h)
    rw [leadingRun]
    refine obeys_bind (settles_less y x) fun b _ => obeys_ite (fun _ => ?_) fun _ => ?_
    · exact obeys_imp (descend_perm y [y, x] rest) fun r h => ⟨h.1.trans hswap, hlength h.2⟩
    · exact obeys_imp (ascend_perm y [y, x] rest) fun r h => ⟨h.1.trans hswap, hlength h.2⟩

theorem middle_bounds (middle : Middle) {low high : Nat} (h : low < high) :
    low ≤ middle.of low high ∧ middle.of low high < high := by
  cases middle <;> simp only [Middle.of] <;> omega

theorem halve_settles {passes : α → Except ε Bool} (hp : Tests less passes) (middle : Middle)
    (xs : List α) (fuel low high : Nat) :
    Settles less (fun place => low ≤ high → place ≤ high)
      (halve middle passes xs fuel low high) := by
  induction fuel generalizing low high with
  | zero => exact id
  | succ fuel ih =>
    rw [halve]
    split
    · next hlt =>
      obtain ⟨hlow, hhigh⟩ := middle_bounds middle hlt
      dsimp only
      split
      · exact id
      · refine obeys_bind (hp _) fun b _ => obeys_ite (fun _ => ?_) fun _ => ?_
        · exact obeys_imp (ih _ _) fun place h _ => h hhigh
        · exact obeys_imp (ih _ _) fun place h _ => (h hlow).trans hhigh.le
    · exact id

theorem insert_perm (run : List α) (x : α) :
    Settles less (fun ys => ys ~ x :: run) (insert less run x) := by
  have htest : Tests less fun y => not <$> less x y := tests_not (settles_less x)
  refine obeys_bind (halve_settles htest .upper run _ _ _) fun place h => ?_
  exact List.perm_insertIdx x run (h (Nat.zero_le _))

theorem insertAll_perm (run xs : List α) :
    Permutes less (run ++ xs) (fun ys => ys ~ run ++ xs) (insertAll less run xs) := by
  induction xs generalizing run with
  | nil =>
    rw [List.append_nil]
    exact List.Perm.refl run
  | cons x xs ih =>
    refine obeys_bind (permutes_halting (insert_perm run x)) fun ys h => ?_
    have hperm : ys ++ xs ~ run ++ x :: xs := (h.append_right xs).trans List.perm_middle.symm
    exact obeys_imp (permutes_perm (ih ys) hperm) fun zs hz => hz.trans hperm

theorem takeRun_perm (least : Nat) (xs : List α) :
    Permutes less xs (fun r => r.1 ++ r.2 ~ xs ∧ min 1 xs.length ≤ r.1.length)
      (takeRun less least xs) := by
  refine obeys_bind (permutes_halting (leadingRun_perm xs)) fun r h => ?_
  obtain ⟨run, rest⟩ := r
  obtain ⟨hperm, hlength⟩ := h
  have hwhole {ys : List α} (hy : ys ~ run ++ rest.take (least - run.length)) :
      ys ++ rest.drop (least - run.length) ~ xs := by
    refine (hy.append_right _).trans ?_
    rw [List.append_assoc, List.take_append_drop]
    exact hperm
  refine obeys_bind (permutes_amid (insertAll_perm run _) fun ys => hwhole) fun ys hy => ?_
  refine ⟨hwhole hy, ?_⟩
  have := hy.length_eq
  simp only [List.length_append] at this
  dsimp only at hlength ⊢
  omega

/-! ### Merging -/

theorem leap_settles {passes : α → Except ε Bool} (hp : Tests less passes) (xs : List α)
    (last next : Nat) : Settles less (fun _ => True) (leap passes xs last next) := by
  fun_induction leap passes xs last next with
  | case1 last next h ih =>
    refine obeys_bind (hp _) fun b _ => ?_
    cases b with
    | true => exact ih
    | false => trivial
  | case2 last next h => trivial

theorem gallop_settles {passes : α → Except ε Bool} (hp : Tests less passes) (middle : Middle)
    (xs : List α) : Settles less (fun _ => True) (gallop middle passes xs) := by
  cases xs with
  | nil => trivial
  | cons x rest =>
    rw [gallop]
    refine obeys_bind (hp x) fun b _ => obeys_ite (fun _ => ?_) fun _ => trivial
    refine obeys_bind (leap_settles hp _ 0 1) fun r _ => ?_
    exact obeys_imp (halve_settles hp middle _ _ _ _) fun _ _ => trivial

theorem longFirst_settles (d : Direction) (x y : α) :
    Settles less (fun _ => True) (d.longFirst less x y) := by
  cases d with
  | forward => exact settles_less y x
  | backward => exact settles_less x y

theorem reverseAux_perm (xs ys : List α) : xs.reverseAux ys ~ xs ++ ys := by
  rw [List.reverseAux_eq]
  exact xs.reverse_perm.append_right ys

namespace Merging

/-- The elements of both runs and of what has been merged. -/
def elements (m : Merging α) : List α := m.merged ++ (m.short ++ m.long)

theorem items_perm (m : Merging α) : m.items ~ m.elements := reverseAux_perm _ _

theorem finish_perm (m : Merging α) : m.finish ~ m.elements := by
  unfold finish elements
  split
  · next x h =>
    rw [h]
    exact (reverseAux_perm _ _).trans (List.perm_append_comm.append_left _)
  · exact reverseAux_perm _ _

theorem elements_short (merged : List α) (x : α) (short long : List α) :
    elements ⟨short, long, x :: merged⟩ ~ elements ⟨x :: short, long, merged⟩ :=
  List.perm_middle.symm

theorem elements_long (merged : List α) (y : α) (short long : List α) :
    elements ⟨short, long, y :: merged⟩ ~ elements ⟨short, y :: long, merged⟩ :=
  List.perm_middle.symm.trans (List.perm_middle.symm.append_left merged)

theorem elements_shorts (merged xs short long : List α) :
    elements ⟨short, long, xs.reverseAux merged⟩ ~ elements ⟨xs ++ short, long, merged⟩ := by
  induction xs generalizing merged with
  | nil => exact .refl _
  | cons x xs ih => exact (ih (x :: merged)).trans (elements_short merged x (xs ++ short) long)

theorem elements_longs (merged ys short long : List α) :
    elements ⟨short, long, ys.reverseAux merged⟩ ~ elements ⟨short, ys ++ long, merged⟩ := by
  induction ys generalizing merged with
  | nil => exact .refl _
  | cons y ys ih => exact (ih (y :: merged)).trans (elements_long merged y short (ys ++ long))

variable {d : Direction}

theorem step_perm (m : Merging α) :
    Settles less (fun r => r.2.elements ~ m.elements) (m.step d less) := by
  obtain ⟨short, long, merged⟩ := m
  rcases short with _ | ⟨x, short⟩
  · exact .refl _
  rcases long with _ | ⟨y, long⟩
  · exact .refl _
  refine obeys_bind (longFirst_settles d x y) fun b _ => obeys_ite (fun _ => ?_) fun _ => ?_
  · exact elements_long merged y (x :: short) long
  · exact elements_short merged x short (y :: long)

theorem sweep_perm (side : Side) (m : Merging α) :
    Settles less (fun r => r.2.elements ~ m.elements) (m.sweep d less side) := by
  obtain ⟨short, long, merged⟩ := m
  rcases short with _ | ⟨x, short⟩
  · exact .refl _
  rcases long with _ | ⟨y, long⟩
  · exact .refl _
  cases side with
  | short =>
    have htest : Tests less fun x => not <$> d.longFirst less x y :=
      tests_not fun x => longFirst_settles d x y
    refine obeys_bind (gallop_settles htest d.middle (x :: short)) fun n _ => ?_
    refine (elements_long _ y _ long).trans ((elements_shorts merged _ _ (y :: long)).trans ?_)
    rw [List.take_append_drop]
  | long =>
    refine obeys_bind (gallop_settles (longFirst_settles d x) d.middle (y :: long)) fun n _ => ?_
    refine (elements_short _ x short _).trans ((elements_longs merged _ (x :: short) _).trans ?_)
    rw [List.take_append_drop]

end Merging

variable {d : Direction}

theorem advance_perm (fuel threshold : Nat) (pace : Pace) (m : Merging α) :
    Permutes less m.elements (fun r => r.2 ~ m.elements)
      (advance d less fuel threshold pace m) := by
  induction fuel generalizing threshold pace m with
  | zero => exact m.finish_perm
  | succ fuel ih =>
    rw [advance.eq_def]
    refine obeys_ite (fun _ => m.finish_perm) fun _ => ?_
    have honward {m' : Merging α} (h : m'.elements ~ m.elements) (threshold : Nat) (pace : Pace) :
        Permutes less m.elements (fun r => r.2 ~ m.elements)
          (advance d less fuel threshold pace m') :=
      obeys_imp (permutes_perm (ih threshold pace m') h) fun _ hr => hr.trans h
    have hsearch {κ : Type} {m' : Merging α} {r : Except ε (κ × Merging α)}
        (h : m'.elements ~ m.elements)
        (hr : Settles less (fun r => r.2.elements ~ m'.elements) r) :
        Permutes less m.elements (fun r => r.2.elements ~ m.elements) (halting m'.items r) :=
      obeys_imp (permutes_perm (permutes_halting hr) (m'.items_perm.trans h))
        fun _ hr => hr.trans h
    cases pace with
    | single side row => exact obeys_bind (hsearch (.refl _) m.step_perm) fun r h => honward h _ _
    | stretches =>
      refine obeys_bind (hsearch (.refl _) (m.sweep_perm d.firstSide)) fun r h => ?_
      refine obeys_ite (fun _ => r.2.finish_perm.trans h) fun _ => ?_
      refine obeys_bind (hsearch h (r.2.sweep_perm d.firstSide.other)) fun r' h' => ?_
      refine obeys_ite (fun _ => r'.2.finish_perm.trans h') fun _ => ?_
      exact obeys_ite (fun _ => honward h' _ _) fun _ => honward h' _ _

theorem mergeSides_perm (threshold : Nat) (short long : List α) :
    Permutes less (short ++ long) (fun r => r.2 ~ short ++ long)
      (mergeSides d less threshold short long) := by
  have hstart : Merging.elements ⟨short, long.drop 1, long.take 1⟩ ~ short ++ long := by
    calc long.take 1 ++ (short ++ long.drop 1)
      _ ~ short ++ (long.take 1 ++ long.drop 1) := List.perm_append_comm_assoc _ _ _
      _ = short ++ long := by rw [List.take_append_drop]
  exact obeys_imp (permutes_perm (advance_perm _ _ _ _) hstart) fun r h => h.trans hstart

theorem mergeOverlap_perm (threshold : Nat) (left right : List α) :
    Permutes less (left ++ right) (fun r => r.2 ~ left ++ right)
      (mergeOverlap less threshold left right) := by
  have hback {xs : List α} (h : xs ~ right.reverse ++ left.reverse) :
      xs.reverse ~ left ++ right := by
    refine xs.reverse_perm.trans (h.trans (List.perm_append_comm.trans ?_))
    exact left.reverse_perm.append right.reverse_perm
  refine obeys_ite (fun _ => mergeSides_perm threshold left right) fun _ => ?_
  refine obeys_bind (permutes_amid (mergeSides_perm threshold _ _) fun xs => hback) fun r h => ?_
  exact hback h

theorem back_split (xs : List α) (n : Nat) :
    (xs.reverse.drop n).reverse ++ (xs.reverse.take n).reverse = xs := by
  rw [← List.reverse_append, List.take_append_drop, List.reverse_reverse]

theorem merge_perm (threshold : Nat) (left right : List α) :
    Permutes less (left ++ right) (fun r => r.2 ~ left ++ right)
      (merge less threshold left right) := by
  unfold merge
  split
  · next h =>
    rw [List.head?_eq_none_iff.mp h, List.append_nil]
    exact .refl left
  · next first h =>
    have hbefore : Tests less fun x => not <$> less first x := tests_not (settles_less first)
    refine obeys_bind (permutes_halting (gallop_settles hbefore .upper left)) fun inPlace _ => ?_
    split
    · exact .refl _
    · next last hlast =>
      have hbehind : Tests less fun y => not <$> less y last :=
        tests_not fun y => settles_less y last
      refine obeys_bind (permutes_halting (gallop_settles hbehind .lower _)) fun above _ => ?_
      have hwhole {xs : List α}
          (h : xs ~ left.drop inPlace ++ (right.reverse.drop above).reverse) :
          left.take inPlace ++ xs ++ (right.reverse.take above).reverse ~ left ++ right := by
        calc left.take inPlace ++ xs ++ (right.reverse.take above).reverse
          _ ~ left.take inPlace ++ (left.drop inPlace ++ (right.reverse.drop above).reverse) ++
              (right.reverse.take above).reverse := (h.append_left _).append_right _
          _ = left ++ right := by
            rw [← List.append_assoc, List.take_append_drop, List.append_assoc, back_split]
      refine obeys_bind (permutes_amid (mergeOverlap_perm _ _ _) fun xs => hwhole) fun r hr => ?_
      exact hwhole hr

/-! ### Sorting -/

/-- The elements of all runs that wait. -/
def held (waiting : List (Waiting α)) : List α := waiting.flatMap Waiting.run

theorem held_cons (w : Waiting α) (rest : List (Waiting α)) :
    held (w :: rest) = w.run ++ held rest := rfl

theorem lineUp_perm (waiting : List (Waiting α)) : lineUp waiting ~ held waiting :=
  waiting.reverse_perm.flatMap_right _

/-- A run that waits is merged with the next one, while others wait. -/
theorem merge_waiting (threshold : Nat) (w : Waiting α) (run : List α)
    (rest : List (Waiting α)) :
    Permutes less (run ++ held (w :: rest)) (fun r => r.2 ++ held rest ~ run ++ held (w :: rest))
      (amid (lineUp rest ++ ·) (merge less threshold w.run run)) := by
  have hwhole {xs : List α} (h : xs ~ w.run ++ run) :
      xs ++ held rest ~ run ++ held (w :: rest) := by
    rw [held_cons]
    refine (h.append_right _).trans ?_
    rw [List.append_assoc]
    exact List.perm_append_comm_assoc _ _ _
  refine obeys_imp (permutes_amid (merge_perm threshold w.run run) fun xs h => ?_)
    fun r => hwhole
  exact ((lineUp_perm rest).append_right xs).trans (List.perm_append_comm.trans (hwhole h))

theorem settle_perm (depth threshold : Nat) (run : List α) (size : Nat)
    (waiting : List (Waiting α)) :
    Permutes less (run ++ held waiting) (fun r => held r.2 ~ run ++ held waiting)
      (settle less depth threshold run size waiting) := by
  induction waiting generalizing threshold run size with
  | nil => exact .refl _
  | cons w rest ih =>
    rw [settle]
    refine obeys_ite (fun _ => ?_) fun _ => .refl _
    refine obeys_bind (merge_waiting threshold w run rest) fun r h => ?_
    exact obeys_imp (permutes_perm (ih r.1 r.2 _) h) fun r' h' => h'.trans h

theorem collapse_perm (threshold : Nat) (run : List α) (size : Nat) (waiting : List (Waiting α)) :
    Permutes less (run ++ held waiting) (fun ys => ys ~ run ++ held waiting)
      (collapse less threshold run size waiting) := by
  fun_induction collapse less threshold run size waiting with
  | case1 threshold run size =>
    rw [held, List.flatMap_nil, List.append_nil]
    exact .refl _
  | case2 threshold run size w =>
    have hpair : w.run ++ run ~ run ++ held [w] := by
      rw [held, List.flatMap_singleton]
      exact List.perm_append_comm
    refine obeys_bind (permutes_perm (merge_perm threshold w.run run) hpair) fun r h => ?_
    exact h.trans hpair
  | case3 threshold run size w v rest hsize ih =>
    have hwhole {xs : List α} (h : xs ~ v.run ++ w.run) :
        run ++ (xs ++ held rest) ~ run ++ held (w :: v :: rest) := by
      refine .append_left run ?_
      rw [held_cons, held_cons]
      refine (h.append_right _).trans ?_
      rw [List.append_assoc]
      exact List.perm_append_comm_assoc _ _ _
    have hline {xs : List α} (h : xs ~ v.run ++ w.run) :
        lineUp rest ++ xs ++ run ~ run ++ held (w :: v :: rest) := by
      refine List.perm_append_comm.trans (.trans (.append_left run ?_) (hwhole h))
      exact ((lineUp_perm rest).append_right xs).trans List.perm_append_comm
    refine obeys_bind (permutes_amid (merge_perm _ _ _) fun xs => hline) fun r h => ?_
    exact obeys_imp (permutes_perm (ih r.1 r.2) (hwhole h)) fun ys hy => hy.trans (hwhole h)
  | case4 threshold run size w v rest hsize ih =>
    refine obeys_bind (merge_waiting threshold w run (v :: rest)) fun r h => ?_
    exact obeys_imp (permutes_perm (ih r.1 r.2) h) fun ys hy => hy.trans h

/-- Each run takes an element at least, so that as much fuel as there are elements suffices. -/
theorem sortRuns_perm (n fuel threshold start : Nat) (run : List α) (waiting : List (Waiting α))
    (xs : List α) (hfuel : xs.length ≤ fuel) :
    Permutes less (run ++ held waiting ++ xs) (fun ys => ys ~ run ++ held waiting ++ xs)
      (sortRuns less n fuel threshold start run waiting xs) := by
  induction fuel generalizing threshold start run waiting xs with
  | zero =>
    obtain rfl := List.length_eq_zero_iff.mp (Nat.le_zero.mp hfuel)
    rw [List.append_nil]
    exact collapse_perm _ _ _ _
  | succ fuel ih =>
    cases xs with
    | nil =>
      rw [List.append_nil]
      exact collapse_perm _ _ _ _
    | cons x xs =>
      have hline : lineUp waiting ++ run ~ run ++ held waiting :=
        ((lineUp_perm waiting).append_right run).trans List.perm_append_comm
      refine obeys_bind (permutes_amid (takeRun_perm _ (x :: xs)) fun ys h =>
        hline.append h) fun r hr => ?_
      obtain ⟨next, rest⟩ := r
      obtain ⟨hperm, hlength⟩ := hr
      have hrest : rest.length ≤ fuel := by
        have := hperm.length_eq
        simp only [List.length_append, List.length_cons] at this hfuel hlength
        omega
      refine obeys_bind (permutes_amid (settle_perm _ threshold run run.length waiting)
        fun ys h => h.append hperm) fun r h => ?_
      have hwhole : next ++ held r.2 ++ rest ~ run ++ held waiting ++ x :: xs := by
        calc next ++ held r.2 ++ rest
          _ ~ next ++ (run ++ held waiting) ++ rest := (h.append_left next).append_right rest
          _ ~ run ++ held waiting ++ next ++ rest := List.perm_append_comm.append_right rest
          _ = run ++ held waiting ++ (next ++ rest) := List.append_assoc _ _ _
          _ ~ run ++ held waiting ++ x :: xs := hperm.append_left _
      exact obeys_imp (permutes_perm (ih _ _ next r.2 rest hrest) hwhole) fun ys hy =>
        hy.trans hwhole

/-- The first comparison is that of the second element with the first. -/
theorem sort_refused {x y : α} {e : ε} (h : less y x = .error e) (rest : List α) :
    sort less (x :: y :: rest) = .error ⟨e, x :: y :: rest⟩ := by
  rw [sort, takeRun, leadingRun, h]
  rfl

theorem sort_short {xs : List α} (h : xs.length < 2) : sort less xs = .ok xs := by
  have halone : takeRun less (leastLength xs.length) xs = .ok (xs, []) := by
    rcases xs with _ | ⟨x, _ | ⟨y, rest⟩⟩
    · simp [takeRun, leadingRun, halting, amid, insertAll, Except.mapError, bind, Except.bind,
        pure, Except.pure]
    · simp [takeRun, leadingRun, halting, amid, insertAll, Except.mapError, bind, Except.bind,
        pure, Except.pure]
    · simp at h
  rw [sort, halone]
  cases xs.length <;> simp [sortRuns, collapse, bind, Except.bind]

/-- Sorting keeps the elements, also when it is refused, and never is but by the comparison. -/
theorem sort_perm (xs : List α) : Permutes less xs (fun ys => ys ~ xs) (sort less xs) := by
  refine obeys_bind (takeRun_perm _ xs) fun r hr => ?_
  obtain ⟨run, rest⟩ := r
  obtain ⟨hperm, -⟩ := hr
  have hlength : rest.length ≤ xs.length := by
    rw [← hperm.length_eq, List.length_append]
    exact Nat.le_add_left _ _
  have hwhole : run ++ held [] ++ rest ~ xs := by
    rw [held, List.flatMap_nil, List.append_nil]
    exact hperm
  exact obeys_imp (permutes_perm (sortRuns_perm _ _ _ _ run [] rest hlength) hwhole) fun ys hy =>
    hy.trans hwhole

end Offside.Sorting
