import Offside.Proofs.Parser.Completeness
import Offside.Proofs.Parser.Fuel
import Offside.Proofs.Parser.Soundness

/-!
The parser reads exactly the expressions of the grammar, from any place in any list of tokens: what
it reads is derived, and what is derived it reads in full when nothing after it goes on with it.
-/

namespace Offside.Parser

open Grammar

/-- At the `p`th token of a list. -/
def Cursor.onward (ts : List Token) (p : Nat) : Cursor := (Cursor.ofTokens ts).skip p

def slice (ts : List Token) (p q : Nat) : List Token := (ts.drop p).take (q - p)

/-- The tokens can go on with an expression: a binary operator, or a suffix. -/
inductive Extends : List Token → Prop where
  | operator {s s' : Symbol} {op : String} {w rest : List Token} :
      Operator s w op s' → Extends (w ++ rest)
  | suffix {t : Token} {rest : List Token} :
      t.kind = .delimiter → t.lexeme ∈ ["(", "[", "."] → Extends (t :: rest)

theorem extends_kind {t : Token} {rest : List Token} (h : Extends (t :: rest)) :
    t.kind ∈ [.operator, .keyword, .delimiter] := by
  generalize hts : t :: rest = ts at h
  cases h with
  | operator hop =>
    cases hop with
    | or h | and h | within h =>
      cases hts
      simp [(is_iff.mp h).1]
    | without h =>
      cases hts
      simp [(is_iff.mp h).1]
    | compare h | sum h | product h =>
      cases hts
      simp [h]
  | suffix hk =>
    cases hts
    simp [hk]

variable {ts u : List Token} {e : Node} {p q fuel : Nat}

theorem ofTokens_concat {u : List Token} {stop : Token} (h : stop.kind = .stop) :
    Cursor.ofTokens (u ++ [stop]) = ⟨u, stop, []⟩ := by
  simp [Cursor.ofTokens, h]

theorem ofTokens_split (ts : List Token) :
    (Cursor.ofTokens ts).stop.kind = .stop ∧
      ∃ tail, ts = (Cursor.ofTokens ts).rest ++ tail ∧ ∀ t ∈ tail, t.kind = .stop := by
  unfold Cursor.ofTokens
  cases h : ts.getLast? with
  | none =>
    rw [List.getLast?_eq_none_iff] at h
    exact ⟨rfl, [], by simp [h], by simp⟩
  | some last =>
    dsimp only
    split
    · next hk =>
      refine ⟨hk, [last], ?_, by simpa using hk⟩
      exact (List.dropLast_append_getLast? last h).symm
    · exact ⟨rfl, [], by simp, by simp⟩

theorem onward_ready (hts : ∀ t ∈ ts, t.Shaped) (p : Nat) : Ready (Cursor.onward ts p) := by
  obtain ⟨hs, tail, htail, -⟩ := ofTokens_split ts
  refine ⟨hs, fun t ht hk => ?_⟩
  have hmem : t ∈ ts := by
    rw [htail]
    exact List.mem_append_left tail (List.mem_of_mem_drop ht)
  simpa [Token.Shaped, hk] using hts t hmem

theorem names_plain {xs : List String} (h : Names u xs) : ∀ t ∈ u, t.kind ≠ .stop := by
  induction h with
  | nil => simp
  | last hk => simp [hk]
  | cons hk hc _ ih => simpa [hk, (is_iff.mp hc).1] using ih

theorem operator_plain {s s' : Symbol} {op : String} (h : Operator s u op s') :
    ∀ t ∈ u, t.kind ≠ .stop := by
  cases h with
  | or h | and h | within h => simp [(is_iff.mp h).1]
  | without h h' => simp [(is_iff.mp h).1, (is_iff.mp h').1]
  | compare h | sum h | product h => simp [h]

theorem operator_ne_nil {s s' : Symbol} {op : String} (h : Operator s u op s') : u ≠ [] := by
  cases h <;> simp

theorem leaf_plain {t : Token} (h : Leaf t e) : t.kind ≠ .stop := by
  cases h with
  | name h | integer h | float h | string h => simp [h]
  | constTrue h | constFalse h | constNone h => simp [(is_iff.mp h).1]

theorem is_plain {t : Token} {kind : TokenKind} {lexeme : String} (h : t.is kind lexeme = true)
    (hk : kind ≠ .stop) : t.kind ≠ .stop := by
  rw [(is_iff.mp h).1]
  exact hk

theorem derives_plain {p : Phrase} (h : Derives Leaf p u) : ∀ t ∈ u, t.kind ≠ .stop := by
  induction h with
  | unit _ _ ih => exact ih
  | lambda hk hn _ hc _ ih =>
    simpa [or_imp, forall_and] using
      ⟨is_plain hk (by simp), names_plain hn, is_plain hc (by simp), ih⟩
  | binary _ ho _ iha ihb => simpa [or_imp, forall_and] using ⟨iha, operator_plain ho, ihb⟩
  | negation hk _ ih | minus hk _ ih => simpa using ⟨is_plain hk (by simp), ih⟩
  | call _ ho _ hc iha ihb | index _ ho _ hc iha ihb =>
    simpa [or_imp, forall_and] using ⟨iha, is_plain ho (by simp), ihb, is_plain hc (by simp)⟩
  | member _ hd hn ih =>
    simpa [or_imp, forall_and, hn] using ⟨ih, is_plain hd (by simp)⟩
  | leaf hl => simpa using leaf_plain hl
  | parens ho _ hc ih | list ho _ hc ih | map ho _ hc ih =>
    simpa [or_imp, forall_and] using ⟨is_plain ho (by simp), ih, is_plain hc (by simp)⟩
  | noItems | noPairs => simp
  | lastItem _ ih => exact ih
  | item _ hc _ iha ihb | lastPair _ hc _ iha ihb =>
    simpa [or_imp, forall_and] using ⟨iha, is_plain hc (by simp), ihb⟩
  | pair _ hc _ hm _ iha ihb ihc =>
    simpa [or_imp, forall_and] using
      ⟨iha, is_plain hc (by simp), ihb, is_plain hm (by simp), ihc⟩

theorem takes_slice {c' : Cursor} (hu : u ≠ []) (h : Takes (Cursor.onward ts p) u c') :
    c' = Cursor.onward ts (p + u.length) ∧ p + u.length ≤ ts.length ∧
      u = slice ts p (p + u.length) := by
  obtain ⟨-, tail, htail, -⟩ := ofTokens_split ts
  have hrest : (Cursor.ofTokens ts).rest.drop p = u ++ c'.rest := h.rest
  have hp : p ≤ (Cursor.ofTokens ts).rest.length := by
    rcases Nat.le_total p (Cursor.ofTokens ts).rest.length with hle | hle
    · exact hle
    · rw [List.drop_eq_nil_of_le hle] at hrest
      exact absurd (List.append_eq_nil_iff.mp hrest.symm).1 hu
  refine ⟨by rw [← h.skip_length, Cursor.onward, Cursor.onward, Cursor.skip_skip], ?_, ?_⟩
  · have := congrArg List.length hrest
    have := congrArg List.length htail
    simp only [List.length_drop, List.length_append] at *
    omega
  · rw [slice, htail, List.drop_append_of_le_length hp, hrest]
    simp

theorem slice_takes (hpq : p ≤ q) (hq : q ≤ ts.length) (hu : ∀ t ∈ slice ts p q, t.kind ≠ .stop)
    (hne : slice ts p q ≠ []) : Takes (Cursor.onward ts p) (slice ts p q) (Cursor.onward ts q) := by
  obtain ⟨-, tail, htail, hstop⟩ := ofTokens_split ts
  have hlt : p < q := by
    rcases Nat.lt_or_eq_of_le hpq with h | rfl
    · exact h
    · simp [slice] at hne
  have hle : q ≤ (Cursor.ofTokens ts).rest.length := by
    by_contra hgt
    -- otherwise the last token of the slice is an end
    have hmem : ts[q - 1] ∈ slice ts p q := by
      rw [slice, List.mem_take_iff_getElem]
      refine ⟨q - 1 - p, by simp; omega, ?_⟩
      simp only [List.getElem_drop]
      congr 1
      omega
    refine hu _ hmem (hstop _ ?_)
    have hbound : q - 1 - (Cursor.ofTokens ts).rest.length < tail.length := by
      have := congrArg List.length htail
      rw [List.length_append] at this
      omega
    have hlast : ts[q - 1] = tail[q - 1 - (Cursor.ofTokens ts).rest.length] := by
      rw [List.getElem_of_eq htail, List.getElem_append_right (by omega)]
    rw [hlast]
    exact List.getElem_mem hbound
  refine ⟨?_, rfl, rfl⟩
  have hslice : slice ts p q = ((Cursor.ofTokens ts).rest.drop p).take (q - p) := by
    conv_lhs => rw [slice, htail, List.drop_append_of_le_length (by omega)]
    exact List.take_append_of_le_length (by simp; omega)
  have hdrop : (Cursor.onward ts q).rest = ((Cursor.ofTokens ts).rest.drop p).drop (q - p) := by
    rw [List.drop_drop, Nat.add_sub_cancel' hpq]
    rfl
  rw [hslice, hdrop, List.take_append_drop]
  rfl

theorem follow_of_stops (hts : ∀ t ∈ ts, t.Shaped) (h : ¬ Extends (ts.drop q)) :
    Follow 0 (Cursor.onward ts q) := by
  obtain ⟨-, tail, htail, -⟩ := ofTokens_split ts
  have hc := onward_ready hts q
  have hpre {u : List Token} {c' : Cursor} (hu : u ≠ []) (ht : Takes (Cursor.onward ts q) u c') :
      ∃ rest, ts.drop q = u ++ rest := by
    obtain ⟨-, -, hs⟩ := takes_slice hu ht
    rw [slice, Nat.add_sub_cancel_left] at hs
    refine ⟨(ts.drop q).drop u.length, ?_⟩
    conv_lhs => rw [← List.take_append_drop u.length (ts.drop q)]
    rw [← hs]
  constructor
  · intro lexeme hl
    cases hi : (Cursor.onward ts q).next.is .delimiter lexeme with
    | false => rfl
    | true =>
      obtain ⟨rest, hr⟩ := hpre (by simp) (takes_is hc.stop (by simp) hi)
      obtain ⟨hk, rfl⟩ := is_iff.mp hi
      exact absurd (hr ▸ Extends.suffix hk hl) h
  · intro l hl
    obtain ⟨⟨op, l', width⟩, ho, rfl⟩ := Option.map_eq_some_iff.mp hl
    obtain ⟨-, -, w, hw, hop⟩ := operator_sound hc ho
    obtain ⟨rest, hr⟩ := hpre (operator_ne_nil hop) hw
    exact absurd (hr ▸ Extends.operator hop) h

/-- Reading an expression at any place of a list: it succeeds only on what the grammar derives,
with the tree of the derivation, and on all of that unless what follows goes on with it. -/
theorem expression_reads_grammar (hts : ∀ t ∈ ts, t.Shaped) (p fuel : Nat) :
    (∀ e c', expression fuel loosest (Cursor.onward ts p) = .ok e c' →
      ∃ q, p ≤ q ∧ q ≤ ts.length ∧ c' = Cursor.onward ts q ∧
        Derives Leaf (.expr .test e.bare) (slice ts p q)) ∧
    (4 * ts.length + 3 ≤ fuel → ∀ q e, p ≤ q → q ≤ ts.length →
      Derives Leaf (.expr .test e) (slice ts p q) → ¬ Extends (ts.drop q) →
      ∃ e', e'.bare = e ∧
        expression fuel loosest (Cursor.onward ts p) = .ok e' (Cursor.onward ts q)) := by
  have hc := onward_ready hts p
  constructor
  · intro e c' h
    obtain ⟨u, hu, hd, -⟩ := (reading_sound fuel).expression hc (Nat.le_refl 1) (by decide) h
    have hne : u ≠ [] := by
      obtain ⟨t, rest, rfl, -⟩ := derives_headed hd
      simp
    obtain ⟨rfl, hle, hs⟩ := takes_slice hne hu
    have hleaf : Derives Leaf (.expr .test e.bare) u := by
      refine derives_mono hd fun t ht e ⟨e', he, ha⟩ => he ▸ leaf_of_shaped (hts t ?_) ha
      rw [hs, slice] at ht
      exact List.mem_of_mem_drop (List.mem_of_mem_take ht)
    exact ⟨p + u.length, Nat.le_add_right p _, hle, rfl, hs ▸ hleaf⟩
  · intro hf q e hpq hq hd hx
    have hd' := derives_mono hd fun _ _ _ => leaf_readable
    have hne : slice ts p q ≠ [] := by
      obtain ⟨t, rest, hs, -⟩ := derives_headed hd'
      simp [hs]
    have ht := slice_takes hpq hq (derives_plain hd) hne
    obtain ⟨e', he, n, hn⟩ := expression_complete hd' ht (follow_of_stops hts hx)
    have hlen : (Cursor.onward ts p).rest.length ≤ ts.length := by
      obtain ⟨-, tail, htail, -⟩ := ofTokens_split ts
      have := congrArg List.length htail
      simp only [Cursor.onward, Cursor.skip_rest, List.length_drop, List.length_append] at *
      omega
    have hfed := (reading_sufficient fuel).expression loosest _ hc.stop
      (show 4 * (Cursor.onward ts p).rest.length + 3 ≤ fuel by omega)
    refine ⟨e', he, outcome_eq (fun fuel => expression fuel loosest)
      (fun fuel => (reading_mono fuel).expression loosest) hfed (hn (max n fuel) ?_) ?_⟩
    · exact Nat.le_max_left n fuel
    · exact Nat.le_max_right n fuel

/-- The tokens of an assignment of `not a < b`. -/
def negatedComparison : List Token :=
  [⟨.identifier, "x", ⟨1, 1⟩⟩, ⟨.operator, "=", ⟨1, 3⟩⟩, ⟨.keyword, "not", ⟨1, 5⟩⟩,
   ⟨.identifier, "a", ⟨1, 9⟩⟩, ⟨.operator, "<", ⟨1, 11⟩⟩, ⟨.identifier, "b", ⟨1, 13⟩⟩,
   ⟨.newline, "\n", ⟨1, 14⟩⟩, ⟨.stop, "", ⟨2, 1⟩⟩]

/-- The value of the assignment is read as the negation of a comparison, up to the line's end. -/
theorem negated_comparison_read : ∃ e',
    e'.bare = .unaryOp .unknown "not" (.binaryOp .unknown "<" (.identifier .unknown "a")
      (.identifier .unknown "b")) ∧
    expression 35 loosest (Cursor.onward negatedComparison 2) =
      .ok e' (Cursor.onward negatedComparison 6) := by
  have hts : ∀ t ∈ negatedComparison, t.Shaped := by
    simp [negatedComparison, Token.Shaped, keywords, operators]
  have name {t : Token} {n : Nat} (h₁ : 1 ≤ n) (h₇ : n ≤ 7) (hk : t.kind = .identifier) :
      Derives Leaf (.expr (layer n) (.identifier .unknown t.lexeme)) [t] :=
    layer_antitone h₁ h₇ (Nat.le_refl 7) (.unit .suffixed (.unit .atom (.leaf (.name hk))))
  have hcomp := Derives.binary (name (n := 4) (t := ⟨.identifier, "a", ⟨1, 9⟩⟩) (by decide)
      (by decide) rfl)
    (Operator.compare (t := ⟨.operator, "<", ⟨1, 11⟩⟩) rfl (by decide))
    (name (n := 5) (t := ⟨.identifier, "b", ⟨1, 13⟩⟩) (by decide) (by decide) rfl)
  have hnot := Derives.negation (t := ⟨.keyword, "not", ⟨1, 5⟩⟩) rfl (.unit .comparison hcomp)
  exact (expression_reads_grammar hts 2 35).2 (by decide) 6 _ (by decide) (by decide)
    (goal_of_layer (n := 3) (Nat.le_refl 1) (by decide) (by decide) hnot)
    fun hx => absurd (extends_kind hx) (by decide)

end Offside.Parser
