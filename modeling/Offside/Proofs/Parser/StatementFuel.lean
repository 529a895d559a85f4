import Offside.Proofs.Parser.Counted
import Offside.Proofs.Parser.Fuel
import Offside.Proofs.Parser.StatementRule

/-!
The allowance of the rules for statements, as for expressions. A statement that fails leaves some
token behind when it is passed over, so the loop over statements ends.
-/

namespace Offside.Parser

variable {α β : Type} {c c' : Cursor}

/-! ### More fuel -/

theorem refines_either {p : Prop} [Decidable p] {x x' y y' : Rule α}
    (h : Refines (x c) (x' c)) (k : Refines (y c) (y' c)) :
    Refines ((if p then x else y) c) ((if p then x' else y') c) := by
  split
  · exact h
  · exact k

theorem refines_then {x : Rule α} {f g : α → Rule β} (h : ∀ a c', Refines (f a c') (g a c')) :
    Refines ((x >>= f) c) ((x >>= g) c) :=
  refines_bind (refines_refl _) h

theorem refines_recovering {rule rule' : Rule Node} (h : Refines (rule c) (rule' c)) :
    Refines (recovering rule c) (recovering rule' c) := by
  rw [recovering_apply, recovering_apply]
  rcases h with h | ⟨c', h⟩
  · rw [h]
    exact refines_refl _
  · rw [h]
    exact .inr ⟨c', rfl⟩

theorem expression_mono (fuel level : Nat) (c : Cursor) :
    Refines (expression fuel level c) (expression (fuel + 1) level c) :=
  (reading_mono fuel).expression level c

theorem simpleStatement_mono (fuel : Nat) (c : Cursor) :
    Refines (simpleStatement fuel c) (simpleStatement (fuel + 1) c) := by
  rw [simpleStatement_apply, simpleStatement_apply]
  apply refines_bind (expression_mono _ _ _)
  intro expr c
  rw [simpleTail_apply, simpleTail_apply]
  refine refines_ite (refines_ite ?_ (refines_refl _)) (refines_refl _)
  exact refines_bind (expression_mono _ _ _) fun _ _ => refines_refl _

theorem returnStatement_mono (fuel : Nat) (context : Context) (c : Cursor) :
    Refines (returnStatement fuel context c) (returnStatement (fuel + 1) context c) := by
  rw [returnStatement_apply, returnStatement_apply]
  refine refines_ite (refines_ite (refines_refl _) ?_) (refines_refl _)
  exact refines_bind (expression_mono _ _ _) fun _ _ => refines_refl _

theorem deleteStatement_mono (fuel : Nat) (c : Cursor) :
    Refines (deleteStatement fuel c) (deleteStatement (fuel + 1) c) := by
  rw [deleteStatement_apply, deleteStatement_apply]
  exact refines_bind (expression_mono _ _ _) fun _ _ => refines_refl _

/-- One more unit of fuel changes no outcome but its lack. -/
structure MonotoneStatements (fuel : Nat) : Prop where
  statements : ∀ context topLevel c,
    Refines (statements fuel context topLevel c) (statements (fuel + 1) context topLevel c)
  statement : ∀ context c, Refines (statement fuel context c) (statement (fuel + 1) context c)
  block : ∀ context header c,
    Refines (block fuel context header c) (block (fuel + 1) context header c)
  elifs : ∀ context branches c,
    Refines (elifs fuel context branches c) (elifs (fuel + 1) context branches c)

variable {fuel : Nat}

theorem ifTail_mono (ih : MonotoneStatements fuel) (context : Context) (p : Position)
    (c : Cursor) : Refines (ifTail fuel context p c) (ifTail (fuel + 1) context p c) := by
  unfold ifTail
  apply refines_bind (expression_mono _ _ _)
  intro condition c
  refine refines_bind (ih.block _ _ _) fun body c => refines_bind (ih.elifs _ _ _) ?_
  intro bs c
  refine refines_then fun _ c => refines_either ?_ (refines_refl _)
  exact refines_bind (ih.block _ _ _) fun _ _ => refines_refl _

theorem whileTail_mono (ih : MonotoneStatements fuel) (context : Context) (p : Position)
    (c : Cursor) : Refines (whileTail fuel context p c) (whileTail (fuel + 1) context p c) := by
  unfold whileTail
  apply refines_bind (expression_mono _ _ _)
  intro condition c
  exact refines_bind (ih.block _ _ _) fun _ _ => refines_refl _

theorem forTail_mono (ih : MonotoneStatements fuel) (context : Context) (p : Position)
    (c : Cursor) : Refines (forTail fuel context p c) (forTail (fuel + 1) context p c) := by
  unfold forTail
  refine refines_then fun name c => refines_then ?_
  intro _ c
  apply refines_bind (expression_mono _ _ _)
  intro iterable c
  exact refines_bind (ih.block _ _ _) fun _ _ => refines_refl _

theorem defTail_mono (ih : MonotoneStatements fuel) (p : Position) (c : Cursor) :
    Refines (defTail fuel p c) (defTail (fuel + 1) p c) := by
  unfold defTail
  refine refines_then fun name c => refines_then ?_
  intro _ c
  refine refines_bind (parameters_mono _ _ _ _ _) fun params c => refines_then ?_
  intro _ c
  exact refines_bind (ih.block _ _ _) fun _ _ => refines_refl _

theorem statement_mono (ih : MonotoneStatements fuel) (context : Context) (c : Cursor) :
    Refines (statement (fuel + 1) context c) (statement (fuel + 1 + 1) context c) := by
  rw [statement_succ, statement_succ]
  refine refines_ite ?_ (refines_ite (refines_refl _) (simpleStatement_mono _ _))
  unfold wordRule
  refine refines_either (refines_then fun _ _ => ifTail_mono ih _ _ _) ?_
  refine refines_either (refines_then fun _ _ => whileTail_mono ih _ _ _) ?_
  refine refines_either (refines_then fun _ _ => forTail_mono ih _ _ _) ?_
  refine refines_either (refines_then fun _ _ => defTail_mono ih _ _) ?_
  apply refines_either (returnStatement_mono _ _ _)
  refine refines_either (refines_refl _) (refines_either (refines_refl _) ?_)
  refine refines_either (refines_refl _) (refines_either (deleteStatement_mono _ _) ?_)
  exact simpleStatement_mono _ _

theorem statements_mono (ih : MonotoneStatements fuel) (context : Context) (topLevel : Bool)
    (c : Cursor) :
    Refines (statements (fuel + 1) context topLevel c)
      (statements (fuel + 1 + 1) context topLevel c) := by
  rw [statements_succ, statements_succ]
  unfold statementsFrom
  refine refines_ite (refines_refl _) (refines_ite ?_ ?_)
  · exact refines_ite (ih.statements _ _ _) (refines_refl _)
  · apply refines_bind (refines_recovering (ih.statement _ _))
    intro s c
    cases s with
    | none => exact ih.statements _ _ _
    | some s => exact refines_bind (ih.statements _ _ _) fun _ _ => refines_refl _

theorem block_mono (ih : MonotoneStatements fuel) (context : Context) (header : String)
    (c : Cursor) :
    Refines (block (fuel + 1) context header c) (block (fuel + 1 + 1) context header c) := by
  rw [block_succ, block_succ]
  refine refines_then fun _ c => refines_then fun _ c => refines_then ?_
  intro _ c
  exact refines_bind (ih.statements _ _ _) fun _ _ => refines_refl _

theorem elifs_mono (ih : MonotoneStatements fuel) (context : Context)
    (branches : List (Node × List Node)) (c : Cursor) :
    Refines (elifs (fuel + 1) context branches c) (elifs (fuel + 1 + 1) context branches c) := by
  rw [elifs_succ, elifs_succ]
  refine refines_ite (refines_bind (expression_mono _ _ _) ?_) (refines_refl _)
  intro condition c
  exact refines_bind (ih.block _ _ _) fun _ _ => ih.elifs _ _ _

theorem statements_monotone (fuel : Nat) : MonotoneStatements fuel := by
  induction fuel with
  | zero => constructor <;> intros <;> exact .inr ⟨_, rfl⟩
  | succ fuel ih =>
    exact ⟨statements_mono ih, statement_mono ih, block_mono ih, elifs_mono ih⟩

/-! ### Enough fuel -/

theorem dropBlock_suffix (depth : Nat) (ts : List Token) : dropBlock depth ts <:+ ts := by
  induction ts generalizing depth with
  | nil => exact List.suffix_refl _
  | cons t rest ih =>
    unfold dropBlock
    split
    · exact List.suffix_refl _
    · exact (ih _).trans (List.suffix_cons t rest)
    · split
      · exact List.suffix_cons t rest
      · exact (ih _).trans (List.suffix_cons t rest)
    · exact (ih _).trans (List.suffix_cons t rest)

theorem afterLine_suffix (rest : List Token) :
    (match rest with
      | [] => []
      | u :: _ => if u.kind = .indent then dropBlock 0 rest else rest) <:+ rest := by
  split
  · exact List.suffix_refl _
  · split
    · exact dropBlock_suffix 0 _
    · exact List.suffix_refl _

theorem dropLine_suffix (ts : List Token) : dropLine ts <:+ ts := by
  induction ts with
  | nil => exact List.suffix_refl _
  | cons t rest ih =>
    unfold dropLine
    split
    · exact List.suffix_refl _
    · exact List.suffix_refl _
    · exact (afterLine_suffix rest).trans (List.suffix_cons t rest)
    · exact ih.trans (List.suffix_cons t rest)

theorem dropStatement_suffix (ts : List Token) : dropStatement ts <:+ ts := by
  unfold dropStatement
  split
  · exact List.suffix_refl _
  · split
    · exact dropBlock_suffix 0 _
    · exact dropLine_suffix _

theorem dropStatement_progress {t : Token} {rest : List Token} (hs : t.kind ≠ .stop)
    (hd : t.kind ≠ .dedent) : dropStatement (t :: rest) <:+ rest := by
  unfold dropStatement
  dsimp only
  split
  · next h =>
    rw [dropBlock]
    simp only [h]
    exact dropBlock_suffix _ rest
  · unfold dropLine
    split
    · next h => exact absurd h hs
    · next h => exact absurd h hd
    · exact afterLine_suffix rest
    · exact dropLine_suffix rest

theorem recovered_ahead {e : ParseError} (hs : c.stop.kind = .stop) (hn : c.next.kind ≠ .stop)
    (hd : c.next.kind ≠ .dedent) (h : Ahead 0 c c') : Ahead 1 c (c'.recovered e) := by
  have hrest : c.rest = c.next :: (c.skip 1).rest := (takes_next hs hn).rest
  have hsuffix : dropStatement c'.rest <:+ (c.skip 1).rest := by
    rcases List.suffix_cons_iff.mp (hrest ▸ h.suffix) with heq | hlt
    · rw [heq]
      exact dropStatement_progress hn hd
    · exact (dropStatement_suffix _).trans hlt
  refine ⟨h.stop, (dropStatement_suffix _).trans h.suffix, ?_⟩
  have := hsuffix.length_le
  rw [hrest, List.length_cons]
  exact Nat.succ_le_succ this

theorem recovering_fed {rule : Rule Node} (hs : c.stop.kind = .stop) (hn : c.next.kind ≠ .stop)
    (hd : c.next.kind ≠ .dedent) (h : Fed 1 c (rule c)) : Fed 1 c (recovering rule c) := by
  rw [recovering_apply]
  cases hr : rule c with
  | ok s c' =>
    rw [hr] at h
    exact h
  | error e c' =>
    rw [hr] at h
    cases e with
    | problem e => exact recovered_ahead hs hn hd h.2
    | fault f => exact h
    | starved => exact absurd rfl h.1

/-- How much fuel the rules for statements need for the tokens that are left. -/
structure SufficientStatements (fuel : Nat) : Prop where
  statements : ∀ context topLevel c, c.stop.kind = .stop → 4 * c.rest.length + 5 ≤ fuel →
    Fed 0 c (statements fuel context topLevel c)
  statement : ∀ context c, c.stop.kind = .stop → 4 * c.rest.length + 4 ≤ fuel →
    Fed 1 c (statement fuel context c)
  block : ∀ context header c, c.stop.kind = .stop → 4 * c.rest.length + 1 ≤ fuel →
    Fed 0 c (block fuel context header c)
  elifs : ∀ context branches c, c.stop.kind = .stop → 4 * c.rest.length + 1 ≤ fuel →
    Fed 0 c (elifs fuel context branches c)

theorem expression_sufficient (level : Nat) (c : Cursor) (hs : c.stop.kind = .stop)
    (hf : 4 * c.rest.length + 3 ≤ fuel) : Fed 1 c (expression fuel level c) :=
  (reading_sufficient fuel).expression level c hs hf

theorem fed_expectToken {k l : Nat} {kind : TokenKind} {what : String} {f : Unit → Rule β}
    (hs : c.stop.kind = .stop) (hk : kind ≠ .stop)
    (hf : ∀ c', Ahead 1 c c' → Fed k c' (f () c')) (hl : l ≤ 1 + k) :
    Fed l c ((discard (expectKind kind what) >>= f) c) := by
  rw [expectKind_discard_bind]
  split
  · next h =>
    have ha := ahead_kind hs (by rw [h]; exact hk)
    exact fed_after ha (hf _ ha) hl
  · exact fed_lacking _ _

theorem fed_endOfLine (a : α) (hs : c.stop.kind = .stop) :
    Fed 0 c ((endOfLine >>= fun _ => pure a) c) := by
  rw [endOfLine_bind]
  split
  · next h => exact fed_after (ahead_kind hs (by simp [h])) (fed_pure a _) (Nat.zero_le _)
  · exact fed_lacking _ _

theorem simpleStatement_fed (hs : c.stop.kind = .stop) (hf : 4 * c.rest.length + 3 ≤ fuel) :
    Fed 1 c (simpleStatement fuel c) := by
  rw [simpleStatement_apply]
  refine fed_bind (k := 0) (expression_sufficient _ c hs hf) ?_ (Nat.le_refl 1)
  intro expr c₁ ha
  have hs₁ : c₁.stop.kind = .stop := ha.stop_kind hs
  rw [simpleTail_apply]
  split
  · next h =>
    split
    · simp only [assigns, Bool.and_eq_true, beq_iff_eq] at h
      have hb := ahead_kind hs₁ (by simp [h.1])
      have := (ha.trans hb).length
      refine fed_after hb (fed_bind (k := 0) (expression_sufficient _ _ hs₁ (by omega))
        ?_ (Nat.zero_le 1)) (Nat.zero_le 1)
      intro value c₂ hd
      exact fed_endOfLine _ (hd.stop_kind hs₁)
    · exact fed_problem _ _
  · exact fed_endOfLine _ hs₁

theorem returnStatement_fed {context : Context} (hs : c.stop.kind = .stop)
    (ha : Ahead 1 c (c.skip 1)) (hf : 4 * c.rest.length + 3 ≤ fuel) :
    Fed 1 c (returnStatement fuel context c) := by
  rw [returnStatement_apply]
  split
  · split
    · exact fed_after ha (fed_endOfLine _ hs) (Nat.le_refl 1)
    · have := ha.length
      refine fed_after ha (fed_bind (k := 0) (expression_sufficient _ _ hs (by omega))
        ?_ (Nat.le_refl 1)) (by omega)
      intro value c₁ hb
      exact fed_endOfLine _ (hb.stop_kind hs)
  · exact fed_problem _ _

theorem loopStatement_fed {context : Context} {build : Place → Node} (hs : c.stop.kind = .stop)
    (ha : Ahead 1 c (c.skip 1)) : Fed 1 c (loopStatement context build c) := by
  rw [loopStatement_apply]
  split
  · exact fed_after ha (fed_endOfLine _ hs) (Nat.le_refl 1)
  · exact fed_problem _ _

theorem deleteStatement_fed (hs : c.stop.kind = .stop) (ha : Ahead 1 c (c.skip 1))
    (hf : 4 * c.rest.length + 3 ≤ fuel) : Fed 1 c (deleteStatement fuel c) := by
  rw [deleteStatement_apply]
  have := ha.length
  refine fed_after ha (fed_bind (k := 0) (expression_sufficient _ _ hs (by omega))
    ?_ (Nat.le_refl 1)) (by omega)
  intro target c₁ hb
  unfold deleteTail
  split
  · exact fed_endOfLine _ (hb.stop_kind hs)
  · exact fed_problem _ _

theorem block_fed (ih : SufficientStatements fuel) (context : Context) (header : String)
    (c : Cursor) (hs : c.stop.kind = .stop) (hf : 4 * c.rest.length + 1 ≤ fuel + 1) :
    Fed 0 c (block (fuel + 1) context header c) := by
  rw [block_succ]
  refine fed_expect (k := 0) hs (by simp) ?_ (Nat.zero_le _)
  intro c₁ h₁
  have hs₁ : c₁.stop.kind = .stop := h₁.stop_kind hs
  refine fed_expectToken (k := 0) hs₁ (by simp) ?_ (Nat.zero_le _)
  intro c₂ h₂
  have hs₂ : c₂.stop.kind = .stop := h₂.stop_kind hs₁
  refine fed_expectToken (k := 0) hs₂ (by simp) ?_ (Nat.zero_le _)
  intro c₃ h₃
  have hs₃ : c₃.stop.kind = .stop := h₃.stop_kind hs₂
  have := ((h₁.trans h₂).trans h₃).length
  refine fed_bind (k := 0) (ih.statements _ _ _ hs₃ (by omega)) ?_ (Nat.zero_le _)
  intro body c₄ h₄
  exact fed_expectToken (k := 0) (h₄.stop_kind hs₃) (by simp) (fun c₅ _ => fed_pure _ c₅)
    (Nat.zero_le _)

theorem elifs_fed (ih : SufficientStatements fuel) (context : Context)
    (branches : List (Node × List Node)) (c : Cursor) (hs : c.stop.kind = .stop)
    (hf : 4 * c.rest.length + 1 ≤ fuel + 1) :
    Fed 0 c (elifs (fuel + 1) context branches c) := by
  rw [elifs_succ]
  split
  · next h =>
    have ha := ahead_is hs (by simp) h
    have := ha.length
    refine fed_after ha (fed_bind (k := 0) (expression_sufficient _ _ hs (by omega))
      ?_ (Nat.zero_le _)) (Nat.zero_le _)
    intro condition c₁ h₁
    have hs₁ : c₁.stop.kind = .stop := h₁.stop_kind hs
    have := (ha.trans h₁).length
    refine fed_bind (k := 0) (ih.block _ _ _ hs₁ (by omega)) ?_ (Nat.zero_le _)
    intro body c₂ h₂
    have := ((ha.trans h₁).trans h₂).length
    exact ih.elifs _ _ _ (h₂.stop_kind hs₁) (by omega)
  · exact fed_pure _ _

theorem ifTail_fed (ih : SufficientStatements fuel) (context : Context) (p : Position) (c : Cursor)
    (hs : c.stop.kind = .stop) (hf : 4 * c.rest.length + 3 ≤ fuel) :
    Fed 0 c (ifTail fuel context p c) := by
  unfold ifTail
  refine fed_bind (k := 0) (expression_sufficient _ _ hs hf) ?_ (Nat.zero_le _)
  intro condition c₁ h₁
  have hs₁ : c₁.stop.kind = .stop := h₁.stop_kind hs
  have := h₁.length
  refine fed_bind (k := 0) (ih.block _ _ _ hs₁ (by omega)) ?_ (Nat.zero_le _)
  intro body c₂ h₂
  have hs₂ : c₂.stop.kind = .stop := h₂.stop_kind hs₁
  have := (h₁.trans h₂).length
  refine fed_bind (k := 0) (ih.elifs _ _ _ hs₂ (by omega)) ?_ (Nat.zero_le _)
  intro branches c₃ h₃
  have hs₃ : c₃.stop.kind = .stop := h₃.stop_kind hs₂
  have := ((h₁.trans h₂).trans h₃).length
  rw [accept_bind]
  split
  · next h =>
    have ha := ahead_is hs₃ (by simp) h
    have := ha.length
    exact fed_after ha (fed_bind (k := 0) (ih.block _ _ _ hs₃ (by omega))
      (fun elseBody c₄ _ => fed_pure _ c₄) (Nat.zero_le 0)) (Nat.zero_le _)
  · exact fed_pure _ _

theorem whileTail_fed (ih : SufficientStatements fuel) (context : Context) (p : Position)
    (c : Cursor) (hs : c.stop.kind = .stop) (hf : 4 * c.rest.length + 3 ≤ fuel) :
    Fed 0 c (whileTail fuel context p c) := by
  unfold whileTail
  refine fed_bind (k := 0) (expression_sufficient _ _ hs hf) ?_ (Nat.zero_le _)
  intro condition c₁ h₁
  have := h₁.length
  exact fed_bind (k := 0) (ih.block _ _ _ (h₁.stop_kind hs) (by omega))
    (fun body c₂ _ => fed_pure _ c₂) (Nat.zero_le _)

theorem forTail_fed (ih : SufficientStatements fuel) (context : Context) (p : Position)
    (c : Cursor) (hs : c.stop.kind = .stop) (hf : 4 * c.rest.length + 3 ≤ fuel) :
    Fed 0 c (forTail fuel context p c) := by
  unfold forTail
  refine fed_expectKind (k := 0) hs (by simp) ?_ (Nat.zero_le _)
  intro name c₁ h₁
  have hs₁ : c₁.stop.kind = .stop := h₁.stop_kind hs
  refine fed_expect (k := 0) hs₁ (by simp) ?_ (Nat.zero_le _)
  intro c₂ h₂
  have hs₂ : c₂.stop.kind = .stop := h₂.stop_kind hs₁
  have := (h₁.trans h₂).length
  refine fed_bind (k := 0) (expression_sufficient _ _ hs₂ (by omega)) ?_ (Nat.zero_le _)
  intro iterable c₃ h₃
  have := h₃.length
  exact fed_bind (k := 0) (ih.block _ _ _ (h₃.stop_kind hs₂) (by omega))
    (fun body c₄ _ => fed_pure _ c₄) (Nat.zero_le _)

theorem defTail_fed (ih : SufficientStatements fuel) (p : Position) (c : Cursor)
    (hs : c.stop.kind = .stop) (hf : 4 * c.rest.length + 3 ≤ fuel) :
    Fed 0 c (defTail fuel p c) := by
  unfold defTail
  refine fed_expectKind (k := 0) hs (by simp) ?_ (Nat.zero_le _)
  intro name c₁ h₁
  have hs₁ : c₁.stop.kind = .stop := h₁.stop_kind hs
  refine fed_expect (k := 0) hs₁ (by simp) ?_ (Nat.zero_le _)
  intro c₂ h₂
  have hs₂ : c₂.stop.kind = .stop := h₂.stop_kind hs₁
  have := (h₁.trans h₂).length
  refine fed_bind (k := 0) (parameters_fed _ _ _ _ hs₂ (by omega)) ?_ (Nat.zero_le _)
  intro params c₃ h₃
  have hs₃ : c₃.stop.kind = .stop := h₃.stop_kind hs₂
  refine fed_expect (k := 0) hs₃ (by simp) ?_ (Nat.zero_le _)
  intro c₄ h₄
  have := ((h₁.trans h₂).trans (h₃.trans h₄)).length
  exact fed_bind (k := 0) (ih.block _ _ _ (h₄.stop_kind hs₃) (by omega))
    (fun body c₅ _ => fed_pure _ c₅) (Nat.zero_le _)

theorem statement_fed (ih : SufficientStatements fuel) (context : Context) (c : Cursor)
    (hs : c.stop.kind = .stop) (hf : 4 * c.rest.length + 4 ≤ fuel + 1) :
    Fed 1 c (statement (fuel + 1) context c) := by
  rw [statement_succ]
  split
  · next hk =>
    have ha := ahead_kind hs (c := c) (by simp [hk])
    have hlen := ha.length
    have tail {x : Rule Node} (hx : Fed 0 (c.skip 1) (x (c.skip 1))) :
        Fed 1 c ((discard advance >>= fun _ => x) c) := by
      rw [discard_advance_bind]
      exact fed_after ha hx (Nat.le_refl 1)
    unfold wordRule
    split_ifs
    · exact tail (ifTail_fed ih _ _ _ hs (by omega))
    · exact tail (whileTail_fed ih _ _ _ hs (by omega))
    · exact tail (forTail_fed ih _ _ _ hs (by omega))
    · exact tail (defTail_fed ih _ _ hs (by omega))
    · exact returnStatement_fed hs ha (by omega)
    · exact loopStatement_fed hs ha
    · exact loopStatement_fed hs ha
    · rw [passStatement_apply]
      exact fed_after ha (fed_endOfLine _ hs) (Nat.le_refl 1)
    · exact deleteStatement_fed hs ha (by omega)
    · exact simpleStatement_fed hs (by omega)
  · split
    · exact fed_problem _ _
    · exact simpleStatement_fed hs (by omega)

theorem afterNewlines_ahead (c : Cursor) : Ahead 0 c c.afterNewlines :=
  ⟨rfl, List.dropWhile_suffix _, (List.dropWhile_suffix _).length_le⟩

theorem statements_fed (ih : SufficientStatements fuel) (context : Context) (topLevel : Bool)
    (c : Cursor) (hs : c.stop.kind = .stop) (hf : 4 * c.rest.length + 5 ≤ fuel + 1) :
    Fed 0 c (statements (fuel + 1) context topLevel c) := by
  have hlines := afterNewlines_ahead c
  have hlen := hlines.length
  rw [statements_succ]
  refine fed_after hlines (k := 0) ?_ (Nat.le_refl 0)
  generalize c.afterNewlines = c₁ at *
  have hs₁ : c₁.stop.kind = .stop := hlines.stop_kind hs
  unfold statementsFrom
  split_ifs with hstop hdedent
  · exact fed_pure _ _
  · have ha := ahead_kind hs₁ hstop
    have hrecord : Ahead 1 c₁ ((c₁.recording ⟨.strayDedent, c₁.next.pos⟩).skip 1) :=
      ⟨rfl, ha.suffix, ha.length⟩
    have := hrecord.length
    exact fed_after hrecord (ih.statements _ _ _ hs₁ (by omega)) (Nat.zero_le _)
  · exact fed_pure _ _
  · refine fed_bind (recovering_fed hs₁ hstop hdedent (ih.statement _ _ hs₁ (by omega)))
      ?_ (Nat.zero_le (1 + 0))
    intro s c₂ h₂
    have := h₂.length
    have hrest := ih.statements context topLevel c₂ (h₂.stop_kind hs₁) (by omega)
    cases s with
    | none => exact hrest
    | some s => exact fed_bind (k := 0) hrest (fun rest c₃ _ => fed_pure _ c₃) (Nat.zero_le _)

theorem statements_sufficient (fuel : Nat) : SufficientStatements fuel := by
  induction fuel with
  | zero => constructor <;> intros <;> omega
  | succ fuel ih => exact ⟨statements_fed ih, statement_fed ih, block_fed ih, elifs_fed ih⟩

end Offside.Parser
