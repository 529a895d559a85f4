import Offside.Proofs.Numeral
import Offside.Proofs.Parser.Rule

/-!
Levels of binding and layers of the grammar. What the parser takes for a binary operator is one
of the grammar, and its level tells the layers of its operands.
-/

namespace Offside

open Grammar

namespace Parser

/-- The layer whose operators have a level; every layer from `or` to the prefixed factors. -/
def layer : Nat → Symbol
  | 1 => .orTest
  | 2 => .andTest
  | 3 => .notTest
  | 4 => .comparison
  | 5 => .arith
  | 6 => .term
  | _ => .factor

/-- A token that is read as an expression of its own. -/
def Readable (t : Token) (e : Node) : Prop := ∃ e', e'.bare = e ∧ atom? t = some (.ok e')

theorem isAssignable_bare (e : Node) : isAssignable e.bare = isAssignable e := by
  cases e <;> rfl

/-- What is read at a level: at the loosest one also a `lambda`. -/
def goal (level : Nat) : Symbol := if level = 1 then .test else layer level

theorem goal_of_lt {level : Nat} (h : 1 < level) : goal level = layer level :=
  if_neg (by omega)

theorem layer_includes {n : Nat} (h₁ : 1 ≤ n) (h₇ : n < 7) :
    (layer n).Includes (layer (n + 1)) := by
  interval_cases n <;> constructor

variable {reads : Token → Node → Prop}

theorem layer_antitone {m n : Nat} (hm : 1 ≤ m) (hmn : m ≤ n) (hn : n ≤ 7) {e : Node}
    {u : List Token} (h : Derives reads (.expr (layer n) e) u) :
    Derives reads (.expr (layer m) e) u := by
  induction n, hmn using Nat.le_induction with
  | base => exact h
  | succ n hmn ih => exact ih (by omega) (.unit (layer_includes (by omega) (by omega)) h)

theorem goal_of_layer {m n : Nat} (hm : 1 ≤ m) (hmn : m ≤ n) (hn : n ≤ 7) {e : Node}
    {u : List Token} (h : Derives reads (.expr (layer n) e) u) :
    Derives reads (.expr (goal m) e) u := by
  have hl := layer_antitone hm hmn hn h
  by_cases h₁ : m = 1
  · subst h₁
    exact .unit .orTest hl
  · rw [goal_of_lt (by omega)]
    exact hl

/-! ### Single tokens -/

theorem is_iff {t : Token} {kind : TokenKind} {lexeme : String} :
    t.is kind lexeme = true ↔ t.kind = kind ∧ t.lexeme = lexeme := by
  simp [Token.is]

theorem leaf_of_shaped {t : Token} {e : Node} (ht : t.Shaped)
    (h : atom? t = some (.ok e)) : Leaf t e.bare := by
  unfold atom? at h
  cases hk : t.kind with
  | integer =>
    have hd : IsDigits t.lexeme.toList := by simpa [Token.Shaped, hk] using ht
    rw [hk] at h
    simp only [Number.readInteger_digits hd, Option.some.injEq, Except.ok.injEq] at h
    subst h
    exact .integer hk hd
  | float =>
    obtain ⟨ds, fs, hl, hd, hf⟩ := by simpa only [Token.Shaped, hk] using ht
    rw [hk] at h
    simp only [hl, Number.readFloat_point hd hf, Option.some.injEq, Except.ok.injEq] at h
    subst h
    exact .float hk hl hd hf
  | string =>
    rw [hk] at h
    cases h
    exact .string hk
  | identifier =>
    rw [hk] at h
    cases h
    exact .name hk
  | keyword =>
    rw [hk] at h
    dsimp only at h
    split_ifs at h with h₁ h₂ h₃ <;> cases h
    · exact .constTrue (is_iff.mpr ⟨hk, h₁⟩)
    · exact .constFalse (is_iff.mpr ⟨hk, h₂⟩)
    · exact .constNone (is_iff.mpr ⟨hk, h₃⟩)
  | operator | delimiter | newline | indent | dedent | stop =>
    rw [hk] at h
    cases h

theorem leaf_readable {t : Token} {e : Node} (h : Leaf t e) : Readable t e := by
  unfold Readable atom?
  cases h with
  | name hk => exact ⟨.identifier t.pos t.lexeme, rfl, by rw [hk]⟩
  | integer hk hd =>
    refine ⟨.literal t.pos (.integer (Number.ofDigits t.lexeme.toList)) "Integer", rfl, ?_⟩
    rw [hk]
    simp [Number.readInteger_digits hd]
  | float hk hl hd hf =>
    refine ⟨.literal t.pos (.float _) "Float", rfl, ?_⟩
    rw [hk]
    simp [hl, Number.readFloat_point hd hf]
  | string hk => exact ⟨.literal t.pos (.string (stringValue t.lexeme)) "String", rfl, by rw [hk]⟩
  | constTrue hk =>
    obtain ⟨hk, hl⟩ := is_iff.mp hk
    exact ⟨.literal t.pos (.boolean true) "Boolean", rfl, by rw [hk, hl]; rfl⟩
  | constFalse hk =>
    obtain ⟨hk, hl⟩ := is_iff.mp hk
    exact ⟨.literal t.pos (.boolean false) "Boolean", rfl, by rw [hk, hl]; rfl⟩
  | constNone hk =>
    obtain ⟨hk, hl⟩ := is_iff.mp hk
    exact ⟨.literal t.pos .null "None", rfl, by rw [hk, hl]; rfl⟩

/-- What single tokens are read as may be read in another way. -/
theorem derives_mono {reads' : Token → Node → Prop} {p : Phrase} {u : List Token}
    (h : Derives reads p u) (hle : ∀ t ∈ u, ∀ e, reads t e → reads' t e) : Derives reads' p u := by
  induction h with
  | unit hs _ ih => exact .unit hs (ih hle)
  | lambda hk hn hd hc _ ih =>
    exact .lambda hk hn hd hc (ih fun t ht => hle t (by simp [ht]))
  | binary _ ho _ iha ihb =>
    exact .binary (iha fun t ht => hle t (by simp [ht])) ho (ihb fun t ht => hle t (by simp [ht]))
  | negation hk _ ih => exact .negation hk (ih fun t ht => hle t (by simp [ht]))
  | minus hk _ ih => exact .minus hk (ih fun t ht => hle t (by simp [ht]))
  | call _ ho _ hc iha ihb =>
    exact .call (iha fun t ht => hle t (by simp [ht])) ho (ihb fun t ht => hle t (by simp [ht])) hc
  | index _ ho _ hc iha ihb =>
    exact .index (iha fun t ht => hle t (by simp [ht])) ho (ihb fun t ht => hle t (by simp [ht])) hc
  | member _ hd hn ih => exact .member (ih fun t ht => hle t (by simp [ht])) hd hn
  | leaf hl => exact .leaf (hle _ (by simp) _ hl)
  | parens ho _ hc ih => exact .parens ho (ih fun t ht => hle t (by simp [ht])) hc
  | list ho _ hc ih => exact .list ho (ih fun t ht => hle t (by simp [ht])) hc
  | map ho _ hc ih => exact .map ho (ih fun t ht => hle t (by simp [ht])) hc
  | noItems => exact .noItems
  | lastItem _ ih => exact .lastItem (ih hle)
  | item _ hc _ iha ihb =>
    exact .item (iha fun t ht => hle t (by simp [ht])) hc (ihb fun t ht => hle t (by simp [ht]))
  | noPairs => exact .noPairs
  | lastPair _ hc _ iha ihb =>
    exact .lastPair (iha fun t ht => hle t (by simp [ht])) hc
      (ihb fun t ht => hle t (by simp [ht]))
  | pair _ hc _ hm _ iha ihb ihc =>
    exact .pair (iha fun t ht => hle t (by simp [ht])) hc (ihb fun t ht => hle t (by simp [ht])) hm
      (ihc fun t ht => hle t (by simp [ht]))

/-! ### Cursors -/

/-- A cursor at tokens whose operators are those of the language, with an end behind them. -/
structure Ready (c : Cursor) : Prop where
  stop : c.stop.kind = .stop
  spelled : ∀ t ∈ c.rest, t.kind = .operator → t.lexeme.toList ∈ operators

/-- Moving over the tokens `u`. -/
structure Takes (c : Cursor) (u : List Token) (c' : Cursor) : Prop where
  rest : c.rest = u ++ c'.rest
  stop : c'.stop = c.stop
  errors : c'.errors = c.errors

theorem Takes.refl (c : Cursor) : Takes c [] c := ⟨rfl, rfl, rfl⟩

theorem Takes.trans {a b c : Cursor} {u v : List Token} (h : Takes a u b) (k : Takes b v c) :
    Takes a (u ++ v) c :=
  ⟨by rw [h.rest, k.rest, List.append_assoc], k.stop.trans h.stop, k.errors.trans h.errors⟩

theorem Takes.ready {c c' : Cursor} {u : List Token} (h : Takes c u c') (hc : Ready c) :
    Ready c' :=
  ⟨by rw [h.stop, hc.stop],
   fun t ht => hc.spelled t (by rw [h.rest]; exact List.mem_append_right u ht)⟩

theorem takes_next {c : Cursor} (hs : c.stop.kind = .stop) (hn : c.next.kind ≠ .stop) :
    Takes c [c.next] (c.skip 1) := by
  refine ⟨?_, rfl, rfl⟩
  cases h : c.rest with
  | nil => simp [Cursor.next, h, hs] at hn
  | cons t rest => simp [Cursor.next, Cursor.skip, h]

theorem Ready.next_spelled {c : Cursor} (hc : Ready c) (hk : c.next.kind = .operator) :
    c.next.lexeme.toList ∈ operators := by
  refine hc.spelled _ ?_ hk
  rw [(takes_next hc.stop (by simp [hk])).rest]
  exact List.mem_cons_self

theorem takes_is {c : Cursor} {kind : TokenKind} {lexeme : String} (hs : c.stop.kind = .stop)
    (hk : kind ≠ .stop) (hn : c.next.is kind lexeme = true) : Takes c [c.next] (c.skip 1) :=
  takes_next hs (by rw [(is_iff.mp hn).1]; exact hk)

theorem Takes.next_eq {c c' : Cursor} {t : Token} {u : List Token} (h : Takes c (t :: u) c') :
    c.next = t := by
  simp [Cursor.next, h.rest]

theorem Takes.skip_one {c c' : Cursor} {t : Token} {u : List Token} (h : Takes c (t :: u) c') :
    Takes (c.skip 1) u c' :=
  ⟨by simp [h.rest], h.stop, h.errors⟩

def nextLevel? (c : Cursor) : Option Nat := (binaryOperator? c.next c.second).map (·.2.1)

/-- No operator of a level or of a tighter one comes next. -/
def Below (level : Nat) (c : Cursor) : Prop := ∀ l, nextLevel? c = some l → l < level

theorem precedence_bounds {op : String} {l : Nat} (h : precedence? op = some l) :
    1 ≤ l ∧ l < 7 ∧ l ≠ notLevel := by
  unfold precedence? at h
  split_ifs at h <;> cases h <;> decide

theorem nextLevel_bounds {c : Cursor} {l : Nat} (h : nextLevel? c = some l) :
    1 ≤ l ∧ l < 7 ∧ l ≠ notLevel := by
  obtain ⟨⟨op, l', w⟩, ho, rfl⟩ := Option.map_eq_some_iff.mp h
  unfold binaryOperator? at ho
  split_ifs at ho
  all_goals
    obtain ⟨m, hm, he⟩ := Option.map_eq_some_iff.mp ho
    cases he
    exact precedence_bounds hm

theorem operator_takes {c : Cursor} (hs : c.stop.kind = .stop) {op : String} {level width : Nat}
    (h : binaryOperator? c.next c.second = some (op, level, width)) :
    ∃ w, Takes c w (c.skip width) ∧ 1 ≤ w.length := by
  unfold binaryOperator? at h
  have taken (hk : c.next.kind ≠ .stop) : Takes c [c.next] (c.skip 1) := takes_next hs hk
  split_ifs at h with ho hk hw hn
  · obtain ⟨l, _, he⟩ := Option.map_eq_some_iff.mp h
    cases he
    exact ⟨_, taken (by simp [ho]), Nat.le_refl 1⟩
  · obtain ⟨l, _, he⟩ := Option.map_eq_some_iff.mp h
    cases he
    exact ⟨_, taken (by simp [hk]), Nat.le_refl 1⟩
  · obtain ⟨l, _, he⟩ := Option.map_eq_some_iff.mp h
    cases he
    have hb := (taken (by simp [hk])).trans (takes_is (c := c.skip 1) hs (by simp) hn.2)
    rw [Cursor.skip_skip] at hb
    exact ⟨_, hb, by simp⟩

theorem precedence_operators {op : List Char} (level : Nat) (hop : op ∈ operators)
    (h : precedence? (String.ofList op) = some level) :
    (level = 4 ∧ String.ofList op ∈ ["==", "!=", "<=", ">=", "<", ">"]) ∨
      (level = 5 ∧ String.ofList op ∈ ["+", "-"]) ∨
      (level = 6 ∧ String.ofList op ∈ ["*", "/", "%"]) := by
  revert h
  have hall : ∀ op ∈ operators, ∀ level ∈ precedence? (String.ofList op),
      (level = 4 ∧ String.ofList op ∈ ["==", "!=", "<=", ">=", "<", ">"]) ∨
      (level = 5 ∧ String.ofList op ∈ ["+", "-"]) ∨
      (level = 6 ∧ String.ofList op ∈ ["*", "/", "%"]) := by decide
  intro h
  exact hall op hop level h

theorem operator_sound {c : Cursor} (hc : Ready c) {op : String} {level width : Nat}
    (h : binaryOperator? c.next c.second = some (op, level, width)) :
    1 ≤ level ∧ level < 7 ∧
      ∃ w, Takes c w (c.skip width) ∧ Operator (layer level) w op (goal (level + 1)) := by
  have taken (hk : c.next.kind ≠ .stop) : Takes c [c.next] (c.skip 1) := takes_next hc.stop hk
  unfold binaryOperator? at h
  by_cases ho : c.next.kind = .operator
  · have ht := taken (by simp [ho])
    rw [if_pos ho, Option.map_eq_some_iff] at h
    obtain ⟨l, hl, he⟩ := h
    obtain ⟨rfl, rfl, rfl⟩ : c.next.lexeme = op ∧ l = level ∧ 1 = width := by simpa using he
    have hs := hc.next_spelled ho
    have hp := precedence_operators l hs (by rw [String.ofList_toList]; exact hl)
    rw [String.ofList_toList] at hp
    rcases hp with ⟨rfl, hm⟩ | ⟨rfl, hm⟩ | ⟨rfl, hm⟩
    · exact ⟨by omega, by omega, _, ht, .compare ho hm⟩
    · exact ⟨by omega, by omega, _, ht, .sum ho hm⟩
    · exact ⟨by omega, by omega, _, ht, .product ho hm⟩
  · rw [if_neg ho] at h
    by_cases hk : c.next.kind = .keyword
    · have ht := taken (by simp [hk])
      rw [if_pos hk] at h
      split_ifs at h with hw hn
      · rcases hw with hw | hw | hw <;> simp [hw, precedence?] at h <;>
          obtain ⟨rfl, rfl, rfl⟩ := h
        · exact ⟨by omega, by omega, _, ht, .and (is_iff.mpr ⟨hk, hw⟩)⟩
        · exact ⟨by omega, by omega, _, ht, .or (is_iff.mpr ⟨hk, hw⟩)⟩
        · exact ⟨by omega, by omega, _, ht, .within (is_iff.mpr ⟨hk, hw⟩)⟩
      · simp [precedence?] at h
        obtain ⟨rfl, rfl, rfl⟩ := h
        have hu := takes_is (c := c.skip 1) hc.stop (by simp) hn.2
        refine ⟨by omega, by omega, _, ?_, .without (is_iff.mpr ⟨hk, hn.1⟩) hn.2⟩
        have hb := ht.trans hu
        rw [Cursor.skip_skip] at hb
        exact hb
    · rw [if_neg hk] at h
      cases h

theorem Takes.skip_length {c c' : Cursor} {u : List Token} (h : Takes c u c') :
    c.skip u.length = c' := by
  have h₁ := h.rest
  have h₂ := h.stop
  have h₃ := h.errors
  cases c
  cases c'
  simp_all [Cursor.skip]

theorem operator_complete {s s' : Symbol} {w : List Token} {op : String}
    (h : Operator s w op s') :
    ∃ level, 1 ≤ level ∧ level < 7 ∧ s = layer level ∧ s' = goal (level + 1) ∧
      ∀ c c', Takes c w c' → binaryOperator? c.next c.second = some (op, level, w.length) := by
  cases h with
  | or hw =>
    obtain ⟨hk, hl⟩ := is_iff.mp hw
    refine ⟨1, by omega, by omega, rfl, rfl, ?_⟩
    intro c c' ht
    simp [binaryOperator?, ht.next_eq, hk, hl, precedence?]
  | and hw =>
    obtain ⟨hk, hl⟩ := is_iff.mp hw
    refine ⟨2, by omega, by omega, rfl, rfl, ?_⟩
    intro c c' ht
    simp [binaryOperator?, ht.next_eq, hk, hl, precedence?]
  | compare hk hm =>
    refine ⟨4, by omega, by omega, rfl, rfl, ?_⟩
    intro c c' ht
    simp only [List.mem_cons, List.not_mem_nil, or_false] at hm
    rcases hm with hm | hm | hm | hm | hm | hm <;>
      simp [binaryOperator?, ht.next_eq, hk, hm, precedence?]
  | within hw =>
    obtain ⟨hk, hl⟩ := is_iff.mp hw
    refine ⟨4, by omega, by omega, rfl, rfl, ?_⟩
    intro c c' ht
    simp [binaryOperator?, ht.next_eq, hk, hl, precedence?]
  | @without t u hw hu =>
    obtain ⟨hk, hl⟩ := is_iff.mp hw
    refine ⟨4, by omega, by omega, rfl, rfl, ?_⟩
    intro c c' ht
    have hsecond : c.second = u := by simp [Cursor.second, ht.rest]
    simp [binaryOperator?, ht.next_eq, hk, hl, hsecond, hu, precedence?]
  | sum hk hm =>
    refine ⟨5, by omega, by omega, rfl, rfl, ?_⟩
    intro c c' ht
    simp only [List.mem_cons, List.not_mem_nil, or_false] at hm
    rcases hm with hm | hm <;> simp [binaryOperator?, ht.next_eq, hk, hm, precedence?]
  | product hk hm =>
    refine ⟨6, by omega, by omega, rfl, rfl, ?_⟩
    intro c c' ht
    simp only [List.mem_cons, List.not_mem_nil, or_false] at hm
    rcases hm with hm | hm | hm <;> simp [binaryOperator?, ht.next_eq, hk, hm, precedence?]

end Parser

end Offside
