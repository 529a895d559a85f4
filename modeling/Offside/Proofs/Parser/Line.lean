import Offside.Proofs.Lexer.Move
import Offside.Proofs.Parser.Placing
import Offside.Proofs.Parser.Reading

/-!
Rules inside a line. Whatever the tokens are, a rule for expressions passes over tokens of a line
only and records nothing, also when it fails; the errors that it fails with stand at tokens of the
list, and it faults at numbers that cannot be converted only. A statement of one line ends after the
end of its line, or fails before that.
-/

namespace Offside

/-- Errors other than those about the end of a block. -/
def ParseFault.OfRule : ParseFault → Prop
  | .strayDedent => False
  | .expected what _ => what ≠ "end of block"
  | _ => True

namespace Parser

variable {α β : Type} {c c' c₁ : Cursor} {ts : List Token}

/-- A cursor over what is left of a list. -/
structure Cursor.In (ts : List Token) (c : Cursor) : Prop where
  kind : c.stop.kind = .stop
  stop : ∃ t ∈ ts, c.stop.pos = t.pos
  rest : c.rest <:+ (Cursor.ofTokens ts).rest

/-- Further on in the same line. -/
def Along (c c' : Cursor) : Prop := ∃ u, Takes c u c' ∧ ∀ t ∈ u, t.kind.OfLine

theorem Along.refl (c : Cursor) : Along c c := ⟨[], .refl c, List.forall_mem_nil _⟩

theorem Along.trans (h : Along c c₁) (k : Along c₁ c') : Along c c' := by
  obtain ⟨u, hu, hline⟩ := h
  obtain ⟨v, hv, hline'⟩ := k
  exact ⟨u ++ v, hu.trans hv, List.forall_mem_append.mpr ⟨hline, hline'⟩⟩

theorem along_skip (h : c.next.kind.OfLine) : Along c (c.skip 1) := by
  unfold Cursor.next at h
  cases hr : c.rest with
  | nil => exact ⟨[], ⟨by simp [hr], rfl, rfl⟩, List.forall_mem_nil _⟩
  | cons t rest =>
    rw [hr] at h
    exact ⟨[t], ⟨by simp [hr], rfl, rfl⟩, List.forall_mem_singleton.mpr h⟩

theorem along_is {kind : TokenKind} {lexeme : String} (h : c.next.is kind lexeme = true)
    (hk : kind.OfLine) : Along c (c.skip 1) :=
  along_skip ((is_iff.mp h).1 ▸ hk)

theorem along_operator {op : String} {level width : Nat}
    (h : binaryOperator? c.next c.second = some (op, level, width)) : Along c (c.skip width) := by
  have hone {x : Option (String × Nat × Nat)} {k : TokenKind} (hn : c.next.kind = k)
      (hk : k.OfLine) (hw : x = some (op, level, width))
      (hx : ∀ r ∈ x, r.2.2 = 1) : Along c (c.skip width) := by
    obtain rfl : width = 1 := hx _ hw
    exact along_skip (hn ▸ hk)
  have hmap (lexeme : String) : ∀ r ∈ (precedence? lexeme).map fun level => (lexeme, level, 1),
      r.2.2 = 1 := by
    intro r hr
    obtain ⟨l, -, rfl⟩ := Option.map_eq_some_iff.mp hr
    rfl
  unfold binaryOperator? at h
  split_ifs at h with h₁ h₂ h₃ h₄
  · exact hone h₁ trivial h (hmap _)
  · exact hone h₂ trivial h (hmap _)
  · obtain ⟨l, -, he⟩ := Option.map_eq_some_iff.mp h
    cases he
    have hsecond : (c.skip 1).next.is .keyword "in" = true := h₄.2
    have h := (along_skip (c := c) (h₂ ▸ trivial)).trans (along_is hsecond trivial)
    rwa [Cursor.skip_skip] at h

namespace Cursor.In

theorem of_along (h : c.In ts) (ha : Along c c') : c'.In ts := by
  obtain ⟨u, hu, -⟩ := ha
  exact ⟨hu.stop ▸ h.kind, hu.stop ▸ h.stop, List.IsSuffix.trans ⟨u, hu.rest.symm⟩ h.rest⟩

theorem mem (h : c.In ts) {t : Token} (ht : t ∈ c.rest) : t ∈ ts := by
  obtain ⟨-, tail, htail, -⟩ := ofTokens_split ts
  rw [htail]
  exact List.mem_append_left tail (h.rest.subset ht)

theorem next_pos (h : c.In ts) : ∃ t ∈ ts, c.next.pos = t.pos := by
  unfold Cursor.next
  cases hr : c.rest with
  | nil => exact h.stop
  | cons t rest => exact ⟨t, h.mem (hr ▸ List.mem_cons_self), rfl⟩

theorem next_mem (h : c.In ts) (hn : c.next.kind ≠ .stop) : c.next ∈ ts := by
  unfold Cursor.next at hn ⊢
  cases hr : c.rest with
  | nil =>
    rw [hr] at hn
    exact absurd h.kind hn
  | cons t rest =>
    have ht : t ∈ c.rest := hr ▸ List.mem_cons_self
    exact h.mem ht

theorem within (h : c.In ts) : c.Within (placesOf ts) := by
  obtain ⟨t, ht, hp⟩ := h.stop
  exact ⟨⟨t, ht, by rw [hp]⟩, fun t ht => ⟨t, h.mem ht, rfl⟩⟩

end Cursor.In

/-! ### What a rule fails with -/

/-- An error of some form at a token of the list, or the fault of one of its tokens. -/
inductive Raised (F : ParseFault → Prop) (ts : List Token) : Halt → Prop where
  | problem {e : ParseError} : F e.fault → (∃ t ∈ ts, e.pos = t.pos) → Raised F ts (.problem e)
  | fault {t : Token} {f : Fault} : t ∈ ts → atom? t = some (.error f) → Raised F ts (.fault f)
  | starved : Raised F ts .starved

theorem Raised.mono {F G : ParseFault → Prop} {e : Halt} (h : Raised F ts e)
    (hFG : ∀ f, F f → G f) : Raised G ts e := by
  cases h with
  | problem hf hp => exact .problem (hFG _ hf) hp
  | fault ht ha => exact .fault ht ha
  | starved => exact .starved

/-- An outcome in the same line. -/
def InLine (ts : List Token) (c : Cursor) : Outcome α → Prop
  | .ok _ c' => Along c c'
  | .error e c' => Along c c' ∧ Raised ParseFault.OfRule ts e

theorem inLine_after {r : Outcome α} (h : Along c c') (hr : InLine ts c' r) : InLine ts c r := by
  cases r with
  | ok a c₁ => exact h.trans hr
  | error e c₁ => exact ⟨h.trans hr.1, hr.2⟩

theorem inLine_bind {x : Rule β} {f : β → Rule α} (hc : c.In ts) (hx : InLine ts c (x c))
    (hf : ∀ b c', x c = .ok b c' → c'.In ts → InLine ts c' (f b c')) :
    InLine ts c ((x >>= f) c) := by
  rw [bind_apply]
  cases h : x c with
  | ok b c' =>
    rw [h] at hx
    exact inLine_after hx (hf b c' h (hc.of_along hx))
  | error e c' =>
    rw [h] at hx
    exact hx

theorem inLine_ite {p : Prop} [Decidable p] {r r' : Outcome α} (h : p → InLine ts c r)
    (k : ¬ p → InLine ts c r') : InLine ts c (if p then r else r') := by
  by_cases hp : p
  · rw [if_pos hp]
    exact h hp
  · rw [if_neg hp]
    exact k hp

theorem inLine_ok (a : α) : InLine ts c (.ok a c) := Along.refl c

theorem inLine_problem {f : ParseFault} (hc : c.In ts) (hf : ParseFault.OfRule f) :
    InLine ts c (.error (.problem ⟨f, c.next.pos⟩) c : Outcome α) :=
  ⟨.refl c, .problem hf hc.next_pos⟩

theorem inLine_lacking {what : String} (hc : c.In ts) (hw : what ≠ "end of block") :
    InLine ts c (lacking what c : Outcome α) :=
  inLine_problem hc hw

theorem inLine_passing {kind : TokenKind} {lexeme : String} {r : Outcome α} (hc : c.In ts)
    (h : c.next.is kind lexeme = true) (hk : kind.OfLine)
    (hr : (c.skip 1).In ts → InLine ts (c.skip 1) r) : InLine ts c r :=
  have ha := along_is h hk
  inLine_after ha (hr (hc.of_along ha))

theorem inLine_expect {kind : TokenKind} {lexeme what : String} {f : Unit → Rule α} (hc : c.In ts)
    (hk : kind.OfLine) (hw : what ≠ "end of block")
    (hf : ∀ c', c'.In ts → InLine ts c' (f () c')) :
    InLine ts c ((discard (expect kind lexeme what) >>= f) c) := by
  rw [expect_bind]
  exact inLine_ite (fun h => inLine_passing hc h hk (hf _)) fun _ => inLine_lacking hc hw

theorem inLine_expectKind {kind : TokenKind} {what : String} {f : Token → Rule α} (hc : c.In ts)
    (hk : kind.OfLine) (hw : what ≠ "end of block")
    (hf : ∀ t c', c'.In ts → InLine ts c' (f t c')) :
    InLine ts c ((expectKind kind what >>= f) c) := by
  rw [expectKind_bind]
  refine inLine_ite (fun h => ?_) fun _ => inLine_lacking hc hw
  have ha : Along c (c.skip 1) := along_skip (h ▸ hk)
  exact inLine_after ha (hf _ _ (hc.of_along ha))

theorem inLine_afterItem {close what : String} {more : Rule α} {done : α} (hc : c.In ts)
    (hw : what ≠ "end of block") (hmore : ∀ c', c'.In ts → InLine ts c' (more c')) :
    InLine ts c (afterItem close what more done c) := by
  rw [afterItem_apply]
  refine inLine_ite (fun h => inLine_passing hc h trivial (hmore _)) fun _ => ?_
  exact inLine_ite (fun h => inLine_passing hc h trivial fun _ => inLine_ok _)
    fun _ => inLine_lacking hc hw

/-! ### Expressions -/

theorem parameters_inLine (close : String) {what : String} (hw : what ≠ "end of block")
    (fuel : Nat) : ∀ ps c, c.In ts → InLine ts c (parameters close what fuel ps c) := by
  induction fuel with
  | zero => exact fun _ c _ => ⟨.refl c, .starved⟩
  | succ fuel ih =>
    intro ps c hc
    rw [parameters_succ]
    refine inLine_ite (fun _ => inLine_ok _) fun _ => inLine_ite (fun hk => ?_)
      fun _ => inLine_lacking hc hw
    have ha : Along c (c.skip 1) := along_skip (hk ▸ trivial)
    refine inLine_ite (fun _ => ⟨ha, .problem trivial hc.next_pos⟩) fun _ => ?_
    refine inLine_after ha (inLine_ite (fun hcomma => ?_) fun _ => inLine_ok _)
    have hb := along_is hcomma trivial
    rw [Cursor.skip_skip] at hb
    exact inLine_after hb (ih _ _ ((hc.of_along ha).of_along hb))

structure RulesInLine (ts : List Token) (fuel : Nat) : Prop where
  expression : ∀ level c, c.In ts → InLine ts c (expression fuel level c)
  climb : ∀ level left c, c.In ts → InLine ts c (climb fuel level left c)
  operand : ∀ level c, c.In ts → InLine ts c (operand fuel level c)
  postfixes : ∀ node c, c.In ts → InLine ts c (postfixes fuel node c)
  sequence : ∀ close what items c, c.In ts → what ≠ "end of block" →
    InLine ts c (sequence fuel close what items c)
  entries : ∀ read c, c.In ts → InLine ts c (entries fuel read c)
  primary : ∀ c, c.In ts → InLine ts c (primary fuel c)

variable {fuel : Nat}

theorem climb_inLine (ih : RulesInLine ts fuel) (level : Nat) (left : Node) (c : Cursor)
    (hc : c.In ts) : InLine ts c (climb (fuel + 1) level left c) := by
  rw [climb_succ]
  cases ho : binaryOperator? c.next c.second with
  | none => exact inLine_ok _
  | some o =>
    have ha := along_operator ho
    refine inLine_ite (fun _ => inLine_ok _) fun _ => inLine_after ha ?_
    have hc' := hc.of_along ha
    exact inLine_bind hc' (ih.expression _ _ hc') fun _ _ _ => ih.climb _ _ _

theorem operand_inLine (ih : RulesInLine ts fuel) (level : Nat) (c : Cursor) (hc : c.In ts) :
    InLine ts c (operand (fuel + 1) level c) := by
  rw [operand_succ]
  refine inLine_ite (fun hk => inLine_ite (fun _ => inLine_problem hc trivial) fun _ => ?_) fun _ =>
    inLine_ite (fun hk => ?_) fun _ => inLine_ite (fun hk => inLine_ite
      (fun _ => inLine_problem hc trivial) fun _ => ?_) fun _ => ?_
  · refine inLine_passing hc hk trivial fun hc' => ?_
    exact inLine_bind hc' (ih.expression _ _ hc') fun _ _ _ _ => inLine_ok _
  · refine inLine_passing hc hk trivial fun hc' => ?_
    exact inLine_bind hc' (ih.expression _ _ hc') fun _ _ _ _ => inLine_ok _
  · refine inLine_passing hc hk trivial fun hc' => ?_
    refine inLine_bind hc' (parameters_inLine _ (by decide) _ _ _ hc') fun _ _ _ hc₁ => ?_
    refine inLine_expect hc₁ trivial (by decide) fun c₂ hc₂ => ?_
    exact inLine_bind hc₂ (ih.expression _ _ hc₂) fun _ _ _ _ => inLine_ok _
  · exact inLine_bind hc (ih.primary _ hc) fun _ _ _ => ih.postfixes _ _

theorem postfixes_inLine (ih : RulesInLine ts fuel) (node : Node) (c : Cursor) (hc : c.In ts) :
    InLine ts c (postfixes (fuel + 1) node c) := by
  rw [postfixes_succ]
  refine inLine_ite (fun hk => inLine_passing hc hk trivial fun hc' => ?_) fun _ =>
    inLine_ite (fun hk => inLine_passing hc hk trivial fun hc' => ?_) fun _ =>
    inLine_ite (fun hk => inLine_passing hc hk trivial fun hc' => ?_) fun _ => inLine_ok _
  · exact inLine_bind hc' (ih.sequence _ _ _ _ hc' (by decide)) fun _ _ _ => ih.postfixes _ _
  · refine inLine_bind hc' (ih.expression _ _ hc') fun _ _ _ hc₁ => ?_
    exact inLine_expect hc₁ trivial (by decide) fun _ => ih.postfixes _ _
  · exact inLine_expectKind hc' trivial (by decide) fun _ _ => ih.postfixes _ _

theorem sequence_inLine (ih : RulesInLine ts fuel) (close what : String) (items : List Node)
    (c : Cursor) (hc : c.In ts) (hw : what ≠ "end of block") :
    InLine ts c (sequence (fuel + 1) close what items c) := by
  rw [sequence_succ]
  refine inLine_ite (fun hk => inLine_passing hc hk trivial fun _ => inLine_ok _) fun _ => ?_
  refine inLine_bind hc (ih.expression _ _ hc) fun _ _ _ hc₁ => ?_
  exact inLine_afterItem hc₁ hw fun _ hc₂ => ih.sequence _ _ _ _ hc₂ hw

theorem entries_inLine (ih : RulesInLine ts fuel) (read : List (Node × Node)) (c : Cursor)
    (hc : c.In ts) : InLine ts c (entries (fuel + 1) read c) := by
  rw [entries_succ]
  refine inLine_ite (fun hk => inLine_passing hc hk trivial fun _ => inLine_ok _) fun _ => ?_
  refine inLine_bind hc (ih.expression _ _ hc) fun _ _ _ hc₁ => ?_
  refine inLine_expect hc₁ trivial (by decide) fun c₂ hc₂ => ?_
  refine inLine_bind hc₂ (ih.expression _ _ hc₂) fun _ _ _ hc₃ => ?_
  exact inLine_afterItem hc₃ (by decide) fun _ => ih.entries _ _

/-- Literals, names and constants are single tokens of a line. -/
theorem atom_ofLine {t : Token} {r : Except Fault Node} (h : atom? t = some r) : t.kind.OfLine := by
  unfold atom? at h
  split at h
  · next hk => exact hk ▸ trivial
  · next hk => exact hk ▸ trivial
  · next hk => exact hk ▸ trivial
  · next hk => exact hk ▸ trivial
  · next hk => exact hk ▸ trivial
  · cases h

theorem primary_inLine (ih : RulesInLine ts fuel) (c : Cursor) (hc : c.In ts) :
    InLine ts c (primary (fuel + 1) c) := by
  rw [primary_succ]
  rcases ha : atom? c.next with _ | f | node
  · refine inLine_ite (fun hk => inLine_passing hc hk trivial fun hc' => ?_) fun _ =>
      inLine_ite (fun hk => inLine_passing hc hk trivial fun hc' => ?_) fun _ =>
      inLine_ite (fun hk => inLine_passing hc hk trivial fun hc' => ?_) fun _ =>
      inLine_lacking hc (by decide)
    · refine inLine_bind hc' (ih.expression _ _ hc') fun _ _ _ hc₁ => ?_
      exact inLine_expect hc₁ trivial (by decide) fun _ _ => inLine_ok _
    · exact inLine_bind hc' (ih.sequence _ _ _ _ hc' (by decide)) fun _ _ _ _ => inLine_ok _
    · exact inLine_bind hc' (ih.entries _ _ hc') fun _ _ _ _ => inLine_ok _
  · have hline := atom_ofLine ha
    have hn : c.next.kind ≠ .stop := by
      intro hstop
      rw [hstop] at hline
      exact hline
    exact ⟨along_skip hline, .fault (hc.next_mem hn) ha⟩
  · exact along_skip (atom_ofLine ha)

theorem rules_inLine (ts : List Token) (fuel : Nat) : RulesInLine ts fuel := by
  induction fuel with
  | zero => constructor <;> intros <;> exact ⟨.refl _, .starved⟩
  | succ fuel ih =>
    refine ⟨?_, climb_inLine ih, operand_inLine ih, postfixes_inLine ih, sequence_inLine ih,
      entries_inLine ih, primary_inLine ih⟩
    intro level c hc
    rw [expression_succ]
    exact inLine_bind hc (ih.operand _ _ hc) fun _ _ _ => ih.climb _ _ _

theorem expression_inLine (fuel level : Nat) (hc : c.In ts) :
    InLine ts c (expression fuel level c) :=
  (rules_inLine ts fuel).expression level c hc

/-- An expression stands at a token of the list. -/
theorem expression_position {fuel level : Nat} {e : Node} (hc : c.In ts)
    (h : expression fuel level c = .ok e c') : ∃ t ∈ ts, e.position = t.pos := by
  have hplaces := expression_places fuel level hc.within
  rw [h] at hplaces
  obtain ⟨t, ht, hp⟩ := hplaces.1.pos
  exact ⟨t, ht, by rw [Node.position, ← hp, Place.position_ofPosition]⟩

/-! ### Statements of one line -/

/-- An outcome after the end of the line, or before it in case of failure. -/
def EndsLine (ts : List Token) (c : Cursor) : Outcome α → Prop
  | .ok _ c' => ∃ c₁, Along c c₁ ∧ c₁.next.kind = .newline ∧ c' = c₁.skip 1
  | .error e c' => Along c c' ∧ Raised ParseFault.OfRule ts e

theorem endsLine_after {r : Outcome α} (h : Along c c') (hr : EndsLine ts c' r) :
    EndsLine ts c r := by
  cases r with
  | ok a c₁ =>
    obtain ⟨c₂, ha, hn, hskip⟩ := hr
    exact ⟨c₂, h.trans ha, hn, hskip⟩
  | error e c₁ => exact ⟨h.trans hr.1, hr.2⟩

theorem endsLine_bind {x : Rule β} {f : β → Rule α} (hc : c.In ts) (hx : InLine ts c (x c))
    (hf : ∀ b c', x c = .ok b c' → c'.In ts → EndsLine ts c' (f b c')) :
    EndsLine ts c ((x >>= f) c) := by
  rw [bind_apply]
  cases h : x c with
  | ok b c' =>
    rw [h] at hx
    exact endsLine_after hx (hf b c' h (hc.of_along hx))
  | error e c' =>
    rw [h] at hx
    exact hx

theorem endsLine_ite {p : Prop} [Decidable p] {r r' : Outcome α} (h : p → EndsLine ts c r)
    (k : ¬ p → EndsLine ts c r') : EndsLine ts c (if p then r else r') := by
  by_cases hp : p
  · rw [if_pos hp]
    exact h hp
  · rw [if_neg hp]
    exact k hp

theorem endsLine_endOfLine (a : α) (hc : c.In ts) :
    EndsLine ts c ((endOfLine >>= fun _ => pure a) c) := by
  rw [endOfLine_bind]
  exact endsLine_ite (fun h => ⟨c, .refl c, h, rfl⟩)
    fun _ => ⟨.refl c, .problem (show "end of line" ≠ "end of block" by decide) hc.next_pos⟩

theorem simpleStatement_endsLine (fuel : Nat) (hc : c.In ts) :
    EndsLine ts c (simpleStatement fuel c) := by
  rw [simpleStatement_apply]
  refine endsLine_bind hc (expression_inLine _ _ hc) fun expr c₁ hexpr hc₁ => ?_
  rw [simpleTail_apply]
  refine endsLine_ite (fun ha => endsLine_ite (fun _ => ?_) fun _ => ?_)
    fun _ => endsLine_endOfLine _ hc₁
  · have hk : c₁.next.kind = .operator := by simpa using (Bool.and_eq_true_iff.mp ha).1
    have hskip : Along c₁ (c₁.skip 1) := along_skip (hk ▸ trivial)
    have hc₂ := hc₁.of_along hskip
    refine endsLine_after hskip (endsLine_bind hc₂ (expression_inLine _ _ hc₂) ?_)
    exact fun _ _ _ hc₃ => endsLine_endOfLine _ hc₃
  · exact ⟨.refl c₁, .problem trivial (expression_position hc hexpr)⟩

theorem returnStatement_endsLine (fuel : Nat) (context : Context) (hc : c.In ts)
    (hn : c.next.kind.OfLine) : EndsLine ts c (returnStatement fuel context c) := by
  have hskip := along_skip hn
  have hc' := hc.of_along hskip
  rw [returnStatement_apply]
  refine endsLine_ite (fun _ => endsLine_after hskip ?_)
    fun _ => ⟨.refl c, .problem trivial hc.next_pos⟩
  refine endsLine_ite (fun _ => endsLine_endOfLine _ hc') fun _ => ?_
  exact endsLine_bind hc' (expression_inLine _ _ hc') fun _ _ _ hc₁ => endsLine_endOfLine _ hc₁

theorem loopStatement_endsLine (context : Context) (build : Place → Node) (hc : c.In ts)
    (hn : c.next.kind.OfLine) : EndsLine ts c (loopStatement context build c) := by
  have hskip := along_skip hn
  rw [loopStatement_apply]
  exact endsLine_ite (fun _ => endsLine_after hskip (endsLine_endOfLine _ (hc.of_along hskip)))
    fun _ => ⟨.refl c, .problem trivial hc.next_pos⟩

theorem passStatement_endsLine (hc : c.In ts) (hn : c.next.kind.OfLine) :
    EndsLine ts c (passStatement c) := by
  have hskip := along_skip hn
  rw [passStatement_apply]
  exact endsLine_after hskip (endsLine_endOfLine _ (hc.of_along hskip))

theorem deleteStatement_endsLine (fuel : Nat) (hc : c.In ts) (hn : c.next.kind.OfLine) :
    EndsLine ts c (deleteStatement fuel c) := by
  have hskip := along_skip hn
  have hc' := hc.of_along hskip
  rw [deleteStatement_apply]
  refine endsLine_after hskip (endsLine_bind hc' (expression_inLine _ _ hc') ?_)
  intro target c₁ htarget hc₁
  unfold deleteTail
  split
  · exact endsLine_endOfLine _ hc₁
  · exact ⟨.refl c₁, .problem trivial (expression_position hc' htarget)⟩

end Parser

end Offside
