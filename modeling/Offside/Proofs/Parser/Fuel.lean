import Offside.Proofs.Parser.Level

/-!
The allowance of the rules for expressions. More of it never changes an outcome other than its
lack, and a fixed multiple of the number of tokens left is enough, since every way back into a
rule takes a token.
-/

namespace Offside.Parser

variable {α β : Type} {c c' c₁ : Cursor}

abbrev Outcome (α : Type) := EStateM.Result Halt Cursor α

/-! ### More fuel -/

/-- The same outcome, unless the first one is the lack of fuel. -/
def Refines (r r' : Outcome α) : Prop := r = r' ∨ ∃ c, r = .error .starved c

theorem refines_refl (r : Outcome α) : Refines r r := .inl rfl

theorem refines_trans {r s t : Outcome α} (h : Refines r s) (k : Refines s t) : Refines r t := by
  rcases h with rfl | h
  · exact k
  · exact .inr h

theorem refines_bind {x y : Rule α} {f g : α → Rule β} (h : Refines (x c) (y c))
    (hf : ∀ a c', Refines (f a c') (g a c')) : Refines ((x >>= f) c) ((y >>= g) c) := by
  rcases h with h | ⟨c', h⟩
  · rw [bind_apply, bind_apply, h]
    cases y c with
    | ok a c' => exact hf a c'
    | error e c' => exact refines_refl _
  · exact .inr ⟨c', by rw [bind_apply, h]⟩

theorem refines_ite {p : Prop} [Decidable p] {r r' s s' : Outcome α} (h : Refines r r')
    (k : Refines s s') : Refines (if p then r else s) (if p then r' else s') := by
  split
  · exact h
  · exact k

theorem refines_afterItem {close what : String} {more more' : Rule α} (done : α) (c : Cursor)
    (h : ∀ c', Refines (more c') (more' c')) :
    Refines (afterItem close what more done c) (afterItem close what more' done c) := by
  rw [afterItem_apply, afterItem_apply]
  exact refines_ite (h _) (refines_refl _)

theorem refines_expect {kind : TokenKind} {lexeme what : String} {f g : Unit → Rule β}
    (h : ∀ c', Refines (f () c') (g () c')) :
    Refines ((discard (expect kind lexeme what) >>= f) c)
      ((discard (expect kind lexeme what) >>= g) c) :=
  refines_bind (refines_refl _) fun _ => h

theorem parameters_mono (close what : String) (fuel : Nat) :
    ∀ ps c, Refines (parameters close what fuel ps c) (parameters close what (fuel + 1) ps c) := by
  induction fuel with
  | zero => exact fun _ c => .inr ⟨c, rfl⟩
  | succ fuel ih =>
    intro ps c
    rw [parameters_succ, parameters_succ]
    refine refines_ite (refines_refl _) (refines_ite (refines_ite (refines_refl _) ?_)
      (refines_refl _))
    exact refines_ite (ih _ _) (refines_refl _)

/-- One more unit of fuel changes no outcome but its lack. -/
structure Monotone (fuel : Nat) : Prop where
  expression : ∀ level c, Refines (expression fuel level c) (expression (fuel + 1) level c)
  climb : ∀ level left c, Refines (climb fuel level left c) (climb (fuel + 1) level left c)
  operand : ∀ level c, Refines (operand fuel level c) (operand (fuel + 1) level c)
  postfixes : ∀ node c, Refines (postfixes fuel node c) (postfixes (fuel + 1) node c)
  sequence : ∀ close what items c,
    Refines (sequence fuel close what items c) (sequence (fuel + 1) close what items c)
  entries : ∀ read c, Refines (entries fuel read c) (entries (fuel + 1) read c)
  primary : ∀ c, Refines (primary fuel c) (primary (fuel + 1) c)

theorem monotone_zero : Monotone 0 := by
  constructor <;> intros <;> exact .inr ⟨_, rfl⟩

theorem climb_mono {fuel : Nat} (ih : Monotone fuel) (level : Nat) (left : Node) (c : Cursor) :
    Refines (climb (fuel + 1) level left c) (climb (fuel + 1 + 1) level left c) := by
  rw [climb_succ, climb_succ]
  cases binaryOperator? c.next c.second with
  | none => exact refines_refl _
  | some o =>
    exact refines_ite (refines_refl _)
      (refines_bind (ih.expression _ _) fun _ _ => ih.climb _ _ _)

theorem operand_mono {fuel : Nat} (ih : Monotone fuel) (level : Nat) (c : Cursor) :
    Refines (operand (fuel + 1) level c) (operand (fuel + 1 + 1) level c) := by
  rw [operand_succ, operand_succ]
  refine refines_ite (refines_ite (refines_refl _) ?_) (refines_ite ?_ (refines_ite ?_ ?_))
  · exact refines_bind (ih.expression _ _) fun _ _ => refines_refl _
  · exact refines_bind (ih.expression _ _) fun _ _ => refines_refl _
  · refine refines_ite (refines_refl _) (refines_bind (parameters_mono _ _ _ _ _) ?_)
    intro _ _
    exact refines_expect fun _ => refines_bind (ih.expression _ _) fun _ _ => refines_refl _
  · exact refines_bind (ih.primary _) fun _ _ => ih.postfixes _ _

theorem postfixes_mono {fuel : Nat} (ih : Monotone fuel) (node : Node) (c : Cursor) :
    Refines (postfixes (fuel + 1) node c) (postfixes (fuel + 1 + 1) node c) := by
  rw [postfixes_succ, postfixes_succ]
  refine refines_ite ?_ (refines_ite ?_ (refines_ite ?_ (refines_refl _)))
  · exact refines_bind (ih.sequence _ _ _ _) fun _ _ => ih.postfixes _ _
  · exact refines_bind (ih.expression _ _) fun _ _ => refines_expect fun _ => ih.postfixes _ _
  · exact refines_bind (refines_refl _) fun _ _ => ih.postfixes _ _

theorem sequence_mono {fuel : Nat} (ih : Monotone fuel) (close what : String) (items : List Node)
    (c : Cursor) :
    Refines (sequence (fuel + 1) close what items c)
      (sequence (fuel + 1 + 1) close what items c) := by
  rw [sequence_succ, sequence_succ]
  refine refines_ite (refines_refl _) (refines_bind (ih.expression _ _) ?_)
  intro _ _
  exact refines_afterItem _ _ fun _ => ih.sequence _ _ _ _

theorem entries_mono {fuel : Nat} (ih : Monotone fuel) (read : List (Node × Node)) (c : Cursor) :
    Refines (entries (fuel + 1) read c) (entries (fuel + 1 + 1) read c) := by
  rw [entries_succ, entries_succ]
  refine refines_ite (refines_refl _) (refines_bind (ih.expression _ _) ?_)
  intro _ _
  refine refines_expect fun _ => refines_bind (ih.expression _ _) ?_
  intro _ _
  exact refines_afterItem _ _ fun _ => ih.entries _ _

theorem primary_mono {fuel : Nat} (ih : Monotone fuel) (c : Cursor) :
    Refines (primary (fuel + 1) c) (primary (fuel + 1 + 1) c) := by
  rw [primary_succ, primary_succ]
  rcases atom? c.next with _ | _ | _
  · refine refines_ite ?_ (refines_ite ?_ (refines_ite ?_ (refines_refl _)))
    · exact refines_bind (ih.expression _ _) fun _ _ => refines_refl _
    · exact refines_bind (ih.sequence _ _ _ _) fun _ _ => refines_refl _
    · exact refines_bind (ih.entries _ _) fun _ _ => refines_refl _
  · exact refines_refl _
  · exact refines_refl _

theorem reading_mono (fuel : Nat) : Monotone fuel := by
  induction fuel with
  | zero => exact monotone_zero
  | succ fuel ih =>
    refine ⟨?_, climb_mono ih, operand_mono ih, postfixes_mono ih,
      sequence_mono ih, entries_mono ih, primary_mono ih⟩
    intro level c
    rw [expression_succ, expression_succ]
    exact refines_bind (ih.operand _ _) fun _ _ => ih.climb _ _ _

theorem refines_le {rule : Nat → Rule α} (h : ∀ fuel c, Refines (rule fuel c) (rule (fuel + 1) c))
    {m n : Nat} (hmn : m ≤ n) (c : Cursor) : Refines (rule m c) (rule n c) := by
  induction n, hmn using Nat.le_induction with
  | base => exact refines_refl _
  | succ n _ ih => exact refines_trans ih (h n c)

/-! ### Enough fuel -/

structure Ahead (k : Nat) (c c' : Cursor) : Prop where
  stop : c'.stop = c.stop
  suffix : c'.rest <:+ c.rest
  length : c'.rest.length + k ≤ c.rest.length

theorem Ahead.refl (c : Cursor) : Ahead 0 c c := ⟨rfl, List.suffix_refl _, Nat.le_refl _⟩

theorem Ahead.trans {j k : Nat} (h : Ahead j c c₁) (h' : Ahead k c₁ c') : Ahead (j + k) c c' :=
  ⟨h'.stop.trans h.stop, h'.suffix.trans h.suffix, by
    have := h.length
    have := h'.length
    omega⟩

theorem Ahead.mono {j k : Nat} (h : Ahead k c c') (hjk : j ≤ k) : Ahead j c c' :=
  ⟨h.stop, h.suffix, by
    have := h.length
    omega⟩

theorem Ahead.stop_kind {k : Nat} (h : Ahead k c c') (hs : c.stop.kind = .stop) :
    c'.stop.kind = .stop := by
  rw [h.stop]
  exact hs

theorem Takes.ahead {u : List Token} (h : Takes c u c') : Ahead u.length c c' :=
  ⟨h.stop, ⟨u, h.rest.symm⟩, by
    rw [h.rest, List.length_append]
    omega⟩

theorem ahead_is {kind : TokenKind} {lexeme : String} (hs : c.stop.kind = .stop)
    (hk : kind ≠ .stop) (hn : c.next.is kind lexeme = true) : Ahead 1 c (c.skip 1) :=
  (takes_is hs hk hn).ahead

theorem ahead_kind (hs : c.stop.kind = .stop) (hk : c.next.kind ≠ .stop) :
    Ahead 1 c (c.skip 1) :=
  (takes_next hs hk).ahead

/-- An outcome other than the lack of fuel, with `k` tokens taken in case of success. -/
def Fed (k : Nat) (c : Cursor) : Outcome α → Prop
  | .ok _ c' => Ahead k c c'
  | .error e c' => e ≠ .starved ∧ Ahead 0 c c'

theorem fed_after {j k l : Nat} {r : Outcome α} (h : Ahead j c c₁) (hr : Fed k c₁ r)
    (hl : l ≤ j + k) : Fed l c r := by
  cases r with
  | ok a c' => exact (h.trans hr).mono hl
  | error e c' => exact ⟨hr.1, (h.trans hr.2).mono (Nat.zero_le _)⟩

theorem fed_bind {j k l : Nat} {x : Rule α} {f : α → Rule β} (hx : Fed j c (x c))
    (hf : ∀ a c', Ahead j c c' → Fed k c' (f a c')) (hl : l ≤ j + k) : Fed l c ((x >>= f) c) := by
  rw [bind_apply]
  cases h : x c with
  | ok a c' =>
    rw [h] at hx
    exact fed_after hx (hf a c' hx) hl
  | error e c' =>
    rw [h] at hx
    exact hx

theorem fed_pure (a : α) (c : Cursor) : Fed 0 c (.ok a c) := Ahead.refl c

theorem fed_problem {k : Nat} (p : ParseError) (c : Cursor) :
    Fed k c (.error (.problem p) c : Outcome α) := ⟨nofun, Ahead.refl c⟩

theorem fed_lacking {k : Nat} (what : String) (c : Cursor) : Fed k c (lacking what c : Outcome α) :=
  fed_problem _ c

theorem fed_expect {k l : Nat} {kind : TokenKind} {lexeme what : String} {f : Unit → Rule β}
    (hs : c.stop.kind = .stop) (hk : kind ≠ .stop)
    (hf : ∀ c', Ahead 1 c c' → Fed k c' (f () c')) (hl : l ≤ 1 + k) :
    Fed l c ((discard (expect kind lexeme what) >>= f) c) := by
  rw [expect_bind]
  split
  · next h =>
    have ha := ahead_is hs hk h
    exact fed_after ha (hf _ ha) hl
  · exact fed_lacking _ _

theorem fed_expectKind {k l : Nat} {kind : TokenKind} {what : String} {f : Token → Rule β}
    (hs : c.stop.kind = .stop) (hk : kind ≠ .stop)
    (hf : ∀ t c', Ahead 1 c c' → Fed k c' (f t c')) (hl : l ≤ 1 + k) :
    Fed l c ((expectKind kind what >>= f) c) := by
  rw [expectKind_bind]
  split
  · next h =>
    have ha := ahead_kind hs (by rw [h]; exact hk)
    exact fed_after ha (hf _ _ ha) hl
  · exact fed_lacking _ _

theorem fed_afterItem {close what : String} {more : Rule α} (done : α)
    (hs : c.stop.kind = .stop) (hm : Ahead 1 c (c.skip 1) → Fed 0 (c.skip 1) (more (c.skip 1))) :
    Fed 0 c (afterItem close what more done c) := by
  rw [afterItem_apply]
  split
  · next h =>
    have ha := ahead_is hs (by simp) h
    exact fed_after ha (hm ha) (Nat.zero_le _)
  · split
    · next h => exact fed_after (ahead_is hs (by simp) h) (fed_pure _ _) (Nat.zero_le _)
    · exact fed_lacking _ _

/-- How much fuel the rules need for the tokens that are left. -/
structure Sufficient (fuel : Nat) : Prop where
  expression : ∀ level c, c.stop.kind = .stop → 4 * c.rest.length + 3 ≤ fuel →
    Fed 1 c (expression fuel level c)
  climb : ∀ level left c, c.stop.kind = .stop → 4 * c.rest.length + 1 ≤ fuel →
    Fed 0 c (climb fuel level left c)
  operand : ∀ level c, c.stop.kind = .stop → 4 * c.rest.length + 2 ≤ fuel →
    Fed 1 c (operand fuel level c)
  postfixes : ∀ node c, c.stop.kind = .stop → 4 * c.rest.length + 1 ≤ fuel →
    Fed 0 c (postfixes fuel node c)
  sequence : ∀ close what items c, c.stop.kind = .stop → 4 * c.rest.length + 4 ≤ fuel →
    Fed 0 c (sequence fuel close what items c)
  entries : ∀ read c, c.stop.kind = .stop → 4 * c.rest.length + 4 ≤ fuel →
    Fed 0 c (entries fuel read c)
  primary : ∀ c, c.stop.kind = .stop → 4 * c.rest.length + 1 ≤ fuel → Fed 1 c (primary fuel c)

variable {fuel : Nat}

theorem sufficient_zero : Sufficient 0 := by
  constructor <;> intros <;> omega

theorem parameters_fed (close what : String) {fuel : Nat} :
    ∀ ps c, c.stop.kind = .stop → c.rest.length + 1 ≤ fuel →
      Fed 0 c (parameters close what fuel ps c) := by
  induction fuel with
  | zero => intros; omega
  | succ fuel ih =>
    intro ps c hs hf
    rw [parameters_succ]
    split
    · exact fed_pure _ _
    · split
      · next hk =>
        have ha := ahead_kind hs (by simp [hk])
        split
        · exact ⟨nofun, ha.mono (Nat.zero_le 1)⟩
        · split
          · next hc =>
            have hb := ha.trans (ahead_is hs (by simp) hc)
            rw [Cursor.skip_skip] at hb
            refine fed_after hb (ih _ _ hs ?_) (Nat.zero_le _)
            have := hb.length
            omega
          · exact fed_after ha (fed_pure _ _) (Nat.zero_le _)
      · exact fed_lacking _ _

theorem expression_fed (ih : Sufficient fuel) (level : Nat) (c : Cursor)
    (hs : c.stop.kind = .stop) (hf : 4 * c.rest.length + 3 ≤ fuel + 1) :
    Fed 1 c (expression (fuel + 1) level c) := by
  rw [expression_succ]
  refine fed_bind (k := 0) (ih.operand level c hs (by omega)) ?_ (Nat.le_refl 1)
  intro left c' ha
  have := ha.length
  exact ih.climb level left c' (ha.stop_kind hs) (by omega)

theorem climb_fed (ih : Sufficient fuel) (level : Nat) (left : Node) (c : Cursor)
    (hs : c.stop.kind = .stop) (hf : 4 * c.rest.length + 1 ≤ fuel + 1) :
    Fed 0 c (climb (fuel + 1) level left c) := by
  rw [climb_succ]
  cases ho : binaryOperator? c.next c.second with
  | none => exact fed_pure _ _
  | some o =>
    obtain ⟨op, l, width⟩ := o
    dsimp only
    split
    · exact fed_pure _ _
    · obtain ⟨w, hw, hlen⟩ := operator_takes hs ho
      have ha := hw.ahead.mono hlen
      have := ha.length
      refine fed_after ha (fed_bind (ih.expression _ _ hs (by omega)) ?_
        (Nat.zero_le (1 + 0))) (Nat.zero_le _)
      intro right c' hb
      have := hb.length
      exact ih.climb _ _ _ (by rw [hb.stop, hw.stop, hs]) (by omega)

theorem operand_fed (ih : Sufficient fuel) (level : Nat) (c : Cursor)
    (hs : c.stop.kind = .stop) (hf : 4 * c.rest.length + 2 ≤ fuel + 1) :
    Fed 1 c (operand (fuel + 1) level c) := by
  have unary (ha : Ahead 1 c (c.skip 1)) (l : Nat) (build : Node → Node) :
      Fed 1 c ((expression fuel l >>= fun e => pure (build e)) (c.skip 1)) := by
    have := ha.length
    exact fed_after ha (fed_bind (ih.expression l _ hs (by omega)) (fun e c' _ => fed_pure _ c')
      (Nat.le_refl 1)) (by omega)
  rw [operand_succ]
  split_ifs with hnot hn hminus hlambda hl
  · exact fed_problem _ c
  · exact unary (ahead_is hs (by simp) hnot) notLevel _
  · exact unary (ahead_is hs (by simp) hminus) minusLevel _
  · exact fed_problem _ c
  · have ha := ahead_is hs (by simp) hlambda
    have := ha.length
    refine fed_after ha (fed_bind (parameters_fed _ _ _ _ hs (by omega))
      ?_ (Nat.zero_le (0 + 0))) (Nat.le_refl 1)
    intro ps c₁ hb
    have := hb.length
    have hs₁ : c₁.stop.kind = .stop := hb.stop_kind hs
    refine fed_expect (k := 0) hs₁ (by simp) ?_ (Nat.zero_le _)
    intro c₂ hd
    have := hd.length
    exact fed_bind (ih.expression _ _ (hd.stop_kind hs₁) (by omega))
      (fun e c' _ => fed_pure _ c') (Nat.zero_le (1 + 0))
  · refine fed_bind (k := 0) (ih.primary c hs (by omega)) ?_ (Nat.le_refl 1)
    intro node c' ha
    have := ha.length
    exact ih.postfixes node c' (ha.stop_kind hs) (by omega)

theorem postfixes_fed (ih : Sufficient fuel) (node : Node) (c : Cursor)
    (hs : c.stop.kind = .stop) (hf : 4 * c.rest.length + 1 ≤ fuel + 1) :
    Fed 0 c (postfixes (fuel + 1) node c) := by
  have go (node : Node) {c' : Cursor} (ha : Ahead 1 c c') : Fed 0 c' (postfixes fuel node c') := by
    have := ha.length
    exact ih.postfixes _ _ (ha.stop_kind hs) (by omega)
  rw [postfixes_succ]
  split_ifs with hcall hindex hmember
  · have ha := ahead_is hs (by simp) hcall
    have := ha.length
    refine fed_after ha (fed_bind (ih.sequence _ _ _ _ hs (by omega)) ?_
      (Nat.zero_le (0 + 0))) (Nat.zero_le _)
    intro args c' hb
    exact go _ (ha.trans hb)
  · have ha := ahead_is hs (by simp) hindex
    have := ha.length
    refine fed_after ha (fed_bind (ih.expression _ _ hs (by omega)) ?_
      (Nat.zero_le (1 + 0))) (Nat.zero_le _)
    intro i c₁ hb
    have hb' := ha.trans hb
    refine fed_expect (k := 0) (hb'.stop_kind hs) (by simp) ?_ (Nat.zero_le _)
    intro c₂ hd
    exact go _ ((hb'.trans hd).mono (by omega))
  · have ha := ahead_is hs (by simp) hmember
    refine fed_after ha (fed_expectKind (k := 0) hs (by simp) ?_ (Nat.zero_le _)) (Nat.zero_le _)
    intro t c₁ hb
    exact go _ ((ha.trans hb).mono (by omega))
  · exact fed_pure _ _

theorem sequence_fed (ih : Sufficient fuel) (close what : String) (items : List Node) (c : Cursor)
    (hs : c.stop.kind = .stop) (hf : 4 * c.rest.length + 4 ≤ fuel + 1) :
    Fed 0 c (sequence (fuel + 1) close what items c) := by
  rw [sequence_succ]
  split
  · next h => exact fed_after (ahead_is hs (by simp) h) (fed_pure _ _) (Nat.zero_le _)
  · refine fed_bind (ih.expression _ c hs (by omega)) ?_ (Nat.zero_le (1 + 0))
    intro item c₁ ha
    have hs₁ : c₁.stop.kind = .stop := ha.stop_kind hs
    refine fed_afterItem _ hs₁ fun hb => ih.sequence _ _ _ _ hs₁ ?_
    have := (ha.trans hb).length
    omega

theorem entries_fed (ih : Sufficient fuel) (read : List (Node × Node)) (c : Cursor)
    (hs : c.stop.kind = .stop) (hf : 4 * c.rest.length + 4 ≤ fuel + 1) :
    Fed 0 c (entries (fuel + 1) read c) := by
  rw [entries_succ]
  split
  · next h => exact fed_after (ahead_is hs (by simp) h) (fed_pure _ _) (Nat.zero_le _)
  · refine fed_bind (ih.expression _ c hs (by omega)) ?_ (Nat.zero_le (1 + 0))
    intro key c₁ ha
    have hs₁ : c₁.stop.kind = .stop := ha.stop_kind hs
    refine fed_expect (k := 0) hs₁ (by simp) ?_ (Nat.zero_le _)
    intro c₂ hb
    have hb' := ha.trans hb
    have := hb'.length
    have hs₂ : c₂.stop.kind = .stop := hb'.stop_kind hs
    refine fed_bind (ih.expression _ c₂ hs₂ (by omega)) ?_ (Nat.zero_le (1 + 0))
    intro value c₃ hd
    have hs₃ : c₃.stop.kind = .stop := hd.stop_kind hs₂
    refine fed_afterItem _ hs₃ fun he => ih.entries _ _ hs₃ ?_
    have := ((hb'.trans hd).trans he).length
    omega

theorem primary_fed (ih : Sufficient fuel) (c : Cursor) (hs : c.stop.kind = .stop)
    (hf : 4 * c.rest.length + 1 ≤ fuel + 1) : Fed 1 c (primary (fuel + 1) c) := by
  rw [primary_succ]
  rcases ha : atom? c.next with _ | f | node
  · dsimp only
    split_ifs with hparens hlist hmap
    · have ha := ahead_is hs (by simp) hparens
      have := ha.length
      refine fed_after ha (fed_bind (ih.expression _ _ hs (by omega)) ?_
        (Nat.zero_le (1 + 0))) (Nat.le_refl 1)
      intro e c₁ hb
      exact fed_expect (k := 0) (hb.stop_kind hs) (by simp) (fun c₂ _ => fed_pure _ c₂)
        (Nat.zero_le _)
    · have ha := ahead_is hs (by simp) hlist
      have := ha.length
      exact fed_after ha (fed_bind (ih.sequence _ _ _ _ hs (by omega))
        (fun _ c₁ _ => fed_pure _ c₁) (Nat.zero_le (0 + 0))) (Nat.le_refl 1)
    · have ha := ahead_is hs (by simp) hmap
      have := ha.length
      exact fed_after ha (fed_bind (ih.entries _ _ hs (by omega))
        (fun _ c₁ _ => fed_pure _ c₁) (Nat.zero_le (0 + 0))) (Nat.le_refl 1)
    · exact fed_lacking _ _
  · have hk : c.next.kind ≠ .stop := by
      intro hk
      simp [atom?, hk] at ha
    exact ⟨nofun, (ahead_kind hs hk).mono (Nat.zero_le 1)⟩
  · have hk : c.next.kind ≠ .stop := by
      intro hk
      simp [atom?, hk] at ha
    exact fed_after (ahead_kind hs hk) (fed_pure _ _) (Nat.le_refl 1)

theorem reading_sufficient (fuel : Nat) : Sufficient fuel := by
  induction fuel with
  | zero => exact sufficient_zero
  | succ fuel ih =>
    exact ⟨expression_fed ih, climb_fed ih, operand_fed ih, postfixes_fed ih, sequence_fed ih,
      entries_fed ih, primary_fed ih⟩

/-- What a monotone rule gives with much fuel, it gives with any that it does not lack. -/
theorem outcome_eq (rule : Nat → Rule α) {m n : Nat} {a : α}
    (hm : ∀ fuel c, Refines (rule fuel c) (rule (fuel + 1) c)) {k : Nat} (hf : Fed k c (rule m c))
    (h : rule n c = .ok a c') (hmn : m ≤ n) : rule m c = .ok a c' := by
  rcases refines_le hm hmn c with he | ⟨c₁, he⟩
  · rw [he, h]
  · rw [he] at hf
    exact absurd rfl hf.1

end Offside.Parser
