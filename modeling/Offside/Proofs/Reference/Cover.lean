import Offside.Proofs.Parser.Level
import Offside.Reference

/-!
What the rules of the grammar cover. A property that holds of a rule whenever it holds of the rules
below it holds of every tree; and what the tokens of each class are.
-/

namespace Offside.Reference

open Offside.Parser (is_iff)

/-! ### Classes of tokens -/

section

variable {t : Token} {text : String}

/-- No operator is of a class of other tokens. -/
theorem ofOperator_other (text : String) :
    Terminal.ofOperator text ∉
        [.name, .integer, .float, .string, .newline, .indent, .dedent, .stop] ∧
      ∀ word, Terminal.ofOperator text ≠ .keyword word ∧
        Terminal.ofOperator text ≠ .delimiter word := by
  unfold Terminal.ofOperator
  split_ifs <;> simp

theorem terminal_keyword : t.terminal = .keyword text ↔ t.is .keyword text = true := by
  have hother := ((ofOperator_other t.lexeme).2 text).1
  rw [is_iff]
  unfold Token.terminal
  cases t.kind <;> simp [hother]

theorem terminal_delimiter : t.terminal = .delimiter text ↔ t.is .delimiter text = true := by
  have hother := ((ofOperator_other t.lexeme).2 text).2
  rw [is_iff]
  unfold Token.terminal
  cases t.kind <;> simp [hother]

/-- The classes of all tokens of one kind. -/
theorem terminal_kind {c : Terminal} {k : TokenKind} (h : (c, k) ∈
    [(.name, .identifier), (.integer, .integer), (.float, .float), (.string, .string),
      (.newline, .newline), (.indent, .indent), (.dedent, .dedent), (.stop, .stop)]) :
    t.terminal = c ↔ t.kind = k := by
  have hother := (ofOperator_other t.lexeme).1
  simp only [List.mem_cons, List.not_mem_nil, or_false, not_or, Prod.mk.injEq] at h hother
  unfold Token.terminal
  rcases h with ⟨rfl, rfl⟩ | ⟨rfl, rfl⟩ | ⟨rfl, rfl⟩ | ⟨rfl, rfl⟩ | ⟨rfl, rfl⟩ | ⟨rfl, rfl⟩ |
    ⟨rfl, rfl⟩ | ⟨rfl, rfl⟩ <;> cases t.kind <;> simp [hother]

/-- A class of operators. -/
theorem terminal_ofOperator {c : Terminal} (hc : ∀ text, c ≠ .keyword text ∧ c ≠ .delimiter text)
    (h : c ∉ [.name, .integer, .float, .string, .newline, .indent, .dedent, .stop]) :
    t.terminal = c ↔ t.kind = .operator ∧ Terminal.ofOperator t.lexeme = c := by
  simp only [List.mem_cons, List.not_mem_nil, or_false, not_or] at h
  have hkeyword := (hc t.lexeme).1.symm
  have hdelimiter := (hc t.lexeme).2.symm
  obtain ⟨h₁, h₂, h₃, h₄, h₅, h₆, h₇, h₈⟩ := h
  unfold Token.terminal
  cases t.kind <;> simp [hkeyword, hdelimiter, Ne.symm h₁, Ne.symm h₂, Ne.symm h₃, Ne.symm h₄,
    Ne.symm h₅, Ne.symm h₆, Ne.symm h₇, Ne.symm h₈]

theorem terminal_augmented :
    t.terminal = .augmented ↔ t.kind = .operator ∧ t.lexeme ∈ Terminal.augmentedTexts := by
  rw [terminal_ofOperator (by simp) (by simp)]
  unfold Terminal.ofOperator
  by_cases h : t.lexeme ∈ Terminal.augmentedTexts
  · simp [h]
  · rw [if_neg h]
    split_ifs <;> simp [h]

/-- The operators that assign, and what they do. -/
theorem augmented_text {text op : String} (h : Parser.augmented? text = some op) :
    text ∈ Terminal.augmentedTexts ∧ (text.take 1).toString = op := by
  unfold Parser.augmented? at h
  split_ifs at h with h₁ h₂ h₃ h₄ h₅ <;> cases h <;> subst text <;>
    exact ⟨by decide, by decide +kernel⟩

theorem terminal_comparison :
    t.terminal = .comparison ↔ t.kind = .operator ∧ t.lexeme ∈ Terminal.comparisonTexts := by
  rw [terminal_ofOperator (by simp) (by simp)]
  have hdisjoint : ∀ x ∈ Terminal.augmentedTexts, x ∉ Terminal.comparisonTexts := by decide
  unfold Terminal.ofOperator
  by_cases h : t.lexeme ∈ Terminal.comparisonTexts
  · rw [if_neg fun haug => hdisjoint _ haug h]
    simp [h]
  · rw [if_neg h]
    split_ifs <;> simp [h]

/-- The classes of one operator each. -/
theorem terminal_mark {c : Terminal} (h : (c, text) ∈
    [(.plus, "+"), (.minus, "-"), (.star, "*"), (.slash, "/"), (.percent, "%"),
      (.operator "=", "=")]) :
    t.terminal = c ↔ t.is .operator text = true := by
  simp only [List.mem_cons, Prod.mk.injEq, List.not_mem_nil, or_false] at h
  have hoperator (x : String) : Terminal.ofOperator t.lexeme = .operator x → t.lexeme = x := by
    unfold Terminal.ofOperator
    split_ifs <;> simp
  rw [is_iff]
  rcases h with ⟨rfl, rfl⟩ | ⟨rfl, rfl⟩ | ⟨rfl, rfl⟩ | ⟨rfl, rfl⟩ | ⟨rfl, rfl⟩ | ⟨rfl, rfl⟩ <;>
    rw [terminal_ofOperator (by simp) (by simp)] <;>
    refine and_congr_right fun _ => ⟨fun h => ?_, fun h => by rw [h]; decide⟩
  case inr.inr.inr.inr.inr => exact hoperator _ h
  all_goals
    unfold Terminal.ofOperator at h
    split_ifs at h
    assumption

end

/-! ### Trees -/

section

variable {x y : Tree} {xs ys : List Tree} {i : Item} {is js : List Item} {label : Label}
  {pos : Position}

theorem transformAll_cons (h : transform x = .ok i) (hs : transformAll xs = .ok is) :
    transformAll (x :: xs) = .ok (i :: is) := by
  rw [transformAll, h, hs]
  rfl

theorem transformAll_append (hx : transformAll xs = .ok is) (hy : transformAll ys = .ok js) :
    transformAll (xs ++ ys) = .ok (is ++ js) := by
  induction xs generalizing is with
  | nil =>
    cases hx
    exact hy
  | cons x xs ih =>
    rw [transformAll] at hx
    cases hi : transform x with
    | error e =>
      rw [hi] at hx
      cases hx
    | ok i =>
      cases his : transformAll xs with
      | error e =>
        rw [hi, his] at hx
        cases hx
      | ok is' =>
        rw [hi, his] at hx
        cases hx
        exact transformAll_cons hi (ih his)

/-- A branch becomes what is built of its parts. -/
theorem transform_branch (h : transformAll xs = .ok is) :
    transform (.branch label pos xs) = build pos label is := by
  rw [transform, h]
  rfl

theorem mapM_node (ns : List Node) : (ns.map Item.node).mapM Item.node? = .ok ns := by
  induction ns with
  | nil => rfl
  | cons n ns ih =>
    rw [List.map_cons, List.mapM_cons, ih]
    rfl

theorem mapM_entry (ps : List (Node × Node)) :
    (ps.map fun p => Item.entry p.1 p.2).mapM Item.entry? = .ok ps := by
  induction ps with
  | nil => rfl
  | cons p ps ih =>
    rw [List.map_cons, List.mapM_cons, ih]
    rfl

end

/-! ### What is covered -/

section

variable {P : Label → List Token → Tree → Prop} {e : Expansion} {ts us whole : List Token}
  {xs : List Tree}

/-- What an expansion covers, by what is covered by the rules in it. -/
def Fits (P : Label → List Token → Tree → Prop) : Expansion → List Token → List Tree → Prop
  | .token c, ts, xs => ∃ t, t.terminal = c ∧ ts = [t] ∧ xs = if c.isKept then [.token t] else []
  | .rule name, ts, xs => ∃ x, P name ts x ∧ xs = [x]
  | .empty, ts, xs => ts = [] ∧ xs = []
  | .both a b, ts, xs => ∃ us vs ys zs, Fits P a us ys ∧ Fits P b vs zs ∧ ts = us ++ vs ∧
      xs = ys ++ zs
  | .either a b, ts, xs => Fits P a ts xs ∨ Fits P b ts xs
  | .many a, ts, xs => ∃ parts : List (List Token × List Tree), (∀ p ∈ parts, Fits P a p.1 p.2) ∧
      ts = parts.flatMap Prod.fst ∧ xs = parts.flatMap Prod.snd

/-- What holds of every part of some tokens holds of what is covered of them. -/
theorem Fits.within (h : Fits (fun name ts x => ts <:+: whole → P name ts x) e ts xs)
    (hts : ts <:+: whole) : Fits P e ts xs := by
  induction e generalizing ts xs with
  | token | empty => exact h
  | rule name =>
    obtain ⟨x, hx, rfl⟩ := h
    exact ⟨x, hx hts, rfl⟩
  | both a b iha ihb =>
    obtain ⟨us, vs, ys, zs, ha, hb, rfl, rfl⟩ := h
    exact ⟨us, vs, ys, zs, iha ha ((List.prefix_append us vs).isInfix.trans hts),
      ihb hb ((List.suffix_append us vs).isInfix.trans hts), rfl, rfl⟩
  | either a b iha ihb => exact h.imp (iha · hts) (ihb · hts)
  | many a ih =>
    obtain ⟨parts, hparts, rfl, rfl⟩ := h
    refine ⟨parts, fun p hp => ih (hparts p hp) ?_, rfl, rfl⟩
    obtain ⟨front, back, rfl⟩ := List.append_of_mem hp
    exact List.IsInfix.trans ⟨front.flatMap Prod.fst, back.flatMap Prod.fst, by simp⟩ hts

/-- What a step from the parts of each rule to the rule keeps holds of all that is covered. -/
theorem Covers.fits (h : Covers e ts xs)
    (step : ∀ {name : Label} {a : Alternative} {ts : List Token} {xs : List Tree},
      a ∈ (grammar name).alternatives → ts <:+: whole → Fits P a.body ts xs →
      P name ts (a.tree name ts xs))
    (hts : ts <:+: whole) : Fits P e ts xs := by
  refine Fits.within ?_ hts
  clear hts
  induction h with
  | token hc => exact ⟨_, hc, rfl, rfl⟩
  | rule ha _ ih => exact ⟨_, fun hts => step ha hts (ih.within hts), rfl⟩
  | empty => exact ⟨rfl, rfl⟩
  | both _ _ iha ihb => exact ⟨_, _, _, _, iha, ihb, rfl, rfl⟩
  | left _ ih => exact .inl ih
  | right _ ih => exact .inr ih
  | done => exact ⟨[], List.forall_mem_nil _, rfl, rfl⟩
  | more _ _ ih ihs =>
    obtain ⟨parts, hparts, rfl, rfl⟩ := ihs
    exact ⟨(_, _) :: parts, List.forall_mem_cons.mpr ⟨ih, hparts⟩, rfl, rfl⟩

/-- Tokens of the same classes are covered alike. -/
theorem Covers.alike (h : Covers e ts xs) (hus : us.map Token.terminal = ts.map Token.terminal) :
    ∃ ys, Covers e us ys := by
  induction h generalizing us with
  | token hc =>
    obtain ⟨t, rfl, ht⟩ := List.map_eq_singleton_iff.mp hus
    exact ⟨_, .token (ht.trans hc)⟩
  | rule ha _ ih =>
    obtain ⟨ys, hys⟩ := ih hus
    exact ⟨_, .rule ha hys⟩
  | empty =>
    obtain rfl := List.map_eq_nil_iff.mp hus
    exact ⟨_, .empty⟩
  | both _ _ iha ihb =>
    rw [List.map_append] at hus
    obtain ⟨us, vs, rfl, hu, hv⟩ := List.map_eq_append_iff.mp hus
    obtain ⟨ys, hys⟩ := iha hu
    obtain ⟨zs, hzs⟩ := ihb hv
    exact ⟨_, .both hys hzs⟩
  | left _ ih =>
    obtain ⟨ys, hys⟩ := ih hus
    exact ⟨ys, .left hys⟩
  | right _ ih =>
    obtain ⟨ys, hys⟩ := ih hus
    exact ⟨ys, .right hys⟩
  | done =>
    obtain rfl := List.map_eq_nil_iff.mp hus
    exact ⟨_, .done⟩
  | more _ _ ih ihs =>
    rw [List.map_append] at hus
    obtain ⟨us, vs, rfl, hu, hv⟩ := List.map_eq_append_iff.mp hus
    obtain ⟨ys, hys⟩ := ih hu
    obtain ⟨zs, hzs⟩ := ihs hv
    exact ⟨_, .more hys hzs⟩

end

end Offside.Reference
