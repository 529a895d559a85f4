import Offside.Proofs.Parser.Fuel

/-!
Levels of binding. What is read at a level is read at the next tighter one and then extended by
operators of the level itself, one after the other, so that climbing is the same as a rule for each
level that reads operands of the next.
-/

namespace Offside.Parser

variable {c c' c₁ : Cursor} {e x : Node} {level fuel width : Nat} {op : String} {t second : Token}

theorem climb_more (h : climb fuel level x c = .ok e c') :
    climb (fuel + 1) level x c = .ok e c' := by
  rcases (reading_mono fuel).climb level x c with heq | ⟨c₂, he⟩
  · rw [← heq, h]
  · cases h.symm.trans he

/-- No operator of the level follows what is read at it. -/
theorem climb_ends (h : climb fuel level x c = .ok e c') : Below level c' := by
  induction fuel generalizing x c with
  | zero => cases h
  | succ fuel ih =>
    rw [climb_succ] at h
    cases ho : binaryOperator? c.next c.second with
    | none =>
      rw [ho] at h
      cases h
      intro l hl
      rw [nextLevel?, ho] at hl
      cases hl
    | some o =>
      obtain ⟨op, l, width⟩ := o
      rw [ho] at h
      dsimp only at h
      split at h
      · next hlt =>
        cases h
        intro l' hl
        rw [nextLevel?, ho] at hl
        cases hl
        exact hlt
      · obtain ⟨right, c₁, -, hmore⟩ := bind_ok_iff.mp h
        exact ih hmore

theorem expression_ends (h : expression fuel level c = .ok e c') : Below level c' := by
  cases fuel with
  | zero => cases h
  | succ fuel =>
    rw [expression_succ] at h
    obtain ⟨x, c₁, -, hclimb⟩ := bind_ok_iff.mp h
    exact climb_ends hclimb

/-- Where no operator of the level follows, nothing is added. -/
theorem climb_below (hb : Below level c) (h : climb fuel level x c = .ok e c') :
    e = x ∧ c' = c := by
  cases fuel with
  | zero => cases h
  | succ fuel =>
    rw [climb_succ] at h
    cases ho : binaryOperator? c.next c.second with
    | none =>
      rw [ho] at h
      cases h
      exact ⟨rfl, rfl⟩
    | some o =>
      obtain ⟨op, l, width⟩ := o
      rw [ho] at h
      dsimp only at h
      rw [if_pos (hb l (by rw [nextLevel?, ho]; rfl))] at h
      cases h
      exact ⟨rfl, rfl⟩

/-- An operator of the level takes an operand of the next. -/
theorem climb_operator (ho : binaryOperator? c.next c.second = some (op, level, width)) :
    climb (fuel + 1) level x c = (expression fuel (level + 1) >>= fun right =>
      climb fuel level (.binaryOp c.next.pos op x right)) (c.skip width) := by
  rw [climb_succ, ho]
  dsimp only
  rw [if_neg (Nat.lt_irrefl level)]

/-- Climbing from a level is climbing from the next one first. -/
theorem climb_split (h : climb fuel level x c = .ok e c') :
    ∃ y c₁, climb fuel (level + 1) x c = .ok y c₁ ∧ climb fuel level y c₁ = .ok e c' := by
  induction fuel generalizing x c with
  | zero => cases h
  | succ fuel ih =>
    rw [climb_succ fuel (level + 1)]
    have hstay := h
    rw [climb_succ] at h
    cases ho : binaryOperator? c.next c.second with
    | none => exact ⟨x, c, rfl, hstay⟩
    | some o =>
      obtain ⟨op, l, width⟩ := o
      dsimp only
      by_cases hl : l < level + 1
      · exact ⟨x, c, if_pos hl, hstay⟩
      · rw [ho] at h
        dsimp only at h
        rw [if_neg (by omega)] at h
        obtain ⟨right, c₂, hright, hmore⟩ := bind_ok_iff.mp h
        obtain ⟨y, c₁, hfirst, hlast⟩ := ih hmore
        refine ⟨y, c₁, ?_, climb_more hlast⟩
        rw [if_neg hl, bind_ok hright, hfirst]

/-- No prefix operator stands at its own level. -/
def PlainAt (level : Nat) (t : Token) : Prop :=
  (level = notLevel → t.is .keyword "not" = false) ∧
    (level = loosest → t.is .keyword "lambda" = false)

theorem operand_split (hp : PlainAt level c.next) (h : operand fuel level c = .ok e c') :
    operand fuel (level + 1) c = .ok e c' := by
  cases fuel with
  | zero => cases h
  | succ fuel =>
    rw [operand_succ] at h ⊢
    by_cases hnot : c.next.is .keyword "not" = true
    · rw [if_pos hnot] at h ⊢
      split at h
      · cases h
      · have hne : level ≠ notLevel := fun heq => by simp [hp.1 heq] at hnot
        rw [if_neg (by omega)]
        exact h
    rw [if_neg hnot] at h ⊢
    by_cases hminus : c.next.is .operator "-" = true
    · rw [if_pos hminus] at h ⊢
      exact h
    rw [if_neg hminus] at h ⊢
    by_cases hlambda : c.next.is .keyword "lambda" = true
    · rw [if_pos hlambda] at h ⊢
      split at h
      · cases h
      · have hne : level ≠ loosest := fun heq => by simp [hp.2 heq] at hlambda
        rw [if_neg (by omega)]
        exact h
    · rw [if_neg hlambda] at h ⊢
      exact h

/-- An expression of a level is one of the next, extended by the operators of the level. -/
theorem expression_split (hp : PlainAt level c.next) (h : expression fuel level c = .ok e c') :
    ∃ y c₁, expression fuel (level + 1) c = .ok y c₁ ∧ Below (level + 1) c₁ ∧
      climb fuel level y c₁ = .ok e c' := by
  cases fuel with
  | zero => cases h
  | succ fuel =>
    rw [expression_succ] at h ⊢
    obtain ⟨x, c₂, hx, hclimb⟩ := bind_ok_iff.mp h
    obtain ⟨y, c₁, hfirst, hlast⟩ := climb_split hclimb
    refine ⟨y, c₁, ?_, climb_ends hfirst, climb_more hlast⟩
    rw [bind_ok (operand_split hp hx), hfirst]

/-- No operator is of the level of `not`, so what does not begin with it is of the next level. -/
theorem expression_notLevel (hp : PlainAt notLevel c.next)
    (h : expression fuel notLevel c = .ok e c') : expression fuel (notLevel + 1) c = .ok e c' := by
  obtain ⟨y, c₁, hy, hbelow, hclimb⟩ := expression_split hp h
  have hnone : Below notLevel c₁ := by
    intro l hl
    have hlt := hbelow l hl
    have hne := (nextLevel_bounds hl).2.2
    omega
  obtain ⟨rfl, rfl⟩ := climb_below hnone hclimb
  exact hy

/-- The operators of each level. -/
theorem operator_level (h : binaryOperator? t second = some (op, level, width)) :
    (level = 1 ∧ t.is .keyword "or" ∧ op = "or" ∧ width = 1) ∨
      (level = 2 ∧ t.is .keyword "and" ∧ op = "and" ∧ width = 1) ∨
      (level = 4 ∧ t.is .keyword "in" ∧ op = "in" ∧ width = 1) ∨
      (level = 4 ∧ t.is .keyword "not" ∧ second.is .keyword "in" ∧ op = "not in" ∧ width = 2) ∨
      (t.kind = .operator ∧ precedence? op = some level ∧ op = t.lexeme ∧ width = 1) := by
  unfold binaryOperator? at h
  split_ifs at h with ho hk hw hn
  · obtain ⟨l, hl, he⟩ := Option.map_eq_some_iff.mp h
    cases he
    exact .inr (.inr (.inr (.inr ⟨ho, hl, rfl, rfl⟩)))
  · obtain ⟨l, hl, he⟩ := Option.map_eq_some_iff.mp h
    cases he
    rcases hw with hw | hw | hw
    · rw [hw] at hl
      cases hl
      exact .inr (.inl ⟨rfl, is_iff.mpr ⟨hk, hw⟩, hw, rfl⟩)
    · rw [hw] at hl
      cases hl
      exact .inl ⟨rfl, is_iff.mpr ⟨hk, hw⟩, hw, rfl⟩
    · rw [hw] at hl
      cases hl
      exact .inr (.inr (.inl ⟨rfl, is_iff.mpr ⟨hk, hw⟩, hw, rfl⟩))
  · obtain ⟨l, hl, he⟩ := Option.map_eq_some_iff.mp h
    cases hl
    cases he
    exact .inr (.inr (.inr (.inl ⟨rfl, is_iff.mpr ⟨hk, hn.1⟩, hn.2, rfl, rfl⟩)))

/-! ### Prefix operators

What follows a prefix operator at its own level is read at that level, so that nothing is left to
extend. -/

theorem below_seven (c : Cursor) : Below 7 c := fun _ hl => (nextLevel_bounds hl).2.1

theorem expression_not (hn : c.next.is .keyword "not" = true)
    (h : expression fuel notLevel c = .ok e c') :
    ∃ m, (expression m notLevel >>= fun y => pure (.unaryOp c.next.pos "not" y)) (c.skip 1) =
      .ok e c' := by
  match fuel with
  | 0 | 1 => cases h
  | fuel + 2 =>
    rw [expression_succ] at h
    obtain ⟨x, c₁, hx, hclimb⟩ := bind_ok_iff.mp h
    rw [operand_succ, if_pos hn, if_neg (Nat.lt_irrefl _)] at hx
    obtain ⟨y, hy, -⟩ := map_ok_iff.mp hx
    obtain ⟨rfl, rfl⟩ := climb_below (expression_ends hy) hclimb
    exact ⟨fuel, hx⟩

/-- What follows `lambda`. -/
def lambdaTail (fuel : Nat) (pos : Position) : Rule Node := do
  let params ← parameters ":" "a parameter name or ':'" fuel []
  discard (expect .delimiter ":" "':' after lambda parameters")
  let body ← expression fuel loosest
  pure (.lambda pos (params.map Json.string) body)

theorem lambdaTail_ends {pos : Position} (h : lambdaTail fuel pos c = .ok e c') :
    Below loosest c' := by
  obtain ⟨params, c₁, -, h⟩ := bind_ok_iff.mp h
  obtain ⟨-, c₂, -, h⟩ := bind_ok_iff.mp h
  obtain ⟨body, hbody, -⟩ := map_ok_iff.mp h
  exact expression_ends hbody

theorem expression_lambda (hn : c.next.is .keyword "lambda" = true)
    (h : expression fuel loosest c = .ok e c') :
    ∃ m, lambdaTail m c.next.pos (c.skip 1) = .ok e c' := by
  match fuel with
  | 0 | 1 => cases h
  | fuel + 2 =>
    rw [expression_succ] at h
    obtain ⟨x, c₁, hx, hclimb⟩ := bind_ok_iff.mp h
    obtain ⟨hk, hl⟩ := is_iff.mp hn
    have hnot : ¬ c.next.is .keyword "not" = true := by simp [is_iff, hl]
    have hminus : ¬ c.next.is .operator "-" = true := by simp [is_iff, hl]
    rw [operand_succ, if_neg hnot, if_neg hminus, if_pos hn, if_neg (Nat.lt_irrefl _)] at hx
    obtain ⟨rfl, rfl⟩ := climb_below (lambdaTail_ends hx) hclimb
    exact ⟨fuel, hx⟩

/-- At the tightest level there is an operand only. -/
theorem expression_tight (h : expression fuel minusLevel c = .ok e c') :
    ∃ m, operand m minusLevel c = .ok e c' := by
  cases fuel with
  | zero => cases h
  | succ fuel =>
    rw [expression_succ] at h
    obtain ⟨x, c₁, hx, hclimb⟩ := bind_ok_iff.mp h
    obtain ⟨rfl, rfl⟩ := climb_below (below_seven c₁) hclimb
    exact ⟨fuel, hx⟩

end Offside.Parser
