import Offside.Proofs.Parser.Longer
import Offside.Proofs.Parser.Recovery

/-!
The parser goes on in the list, and no rule passes an END. Whether a rule succeeds or fails, what is
left after it is left of what was there before, less some tokens of which none is an END; so it is
with passing over a statement that failed.
-/

namespace Offside.Parser

variable {α β : Type} {c c' c₁ : Cursor} {ts : List Token} {fuel : Nat}

/-! ### Short of the first END -/

/-- Further on in the list, with no END passed. -/
structure Forth (c c' : Cursor) : Prop where
  stop : c'.stop = c.stop
  rest : ∃ u, c.rest = u ++ c'.rest ∧ ∀ t ∈ u, t.kind ≠ .stop

theorem Forth.refl (c : Cursor) : Forth c c := ⟨rfl, [], rfl, List.forall_mem_nil _⟩

theorem Forth.trans (h : Forth c c₁) (k : Forth c₁ c') : Forth c c' := by
  obtain ⟨u, hu, hplain⟩ := h.rest
  obtain ⟨v, hv, hplain'⟩ := k.rest
  exact ⟨k.stop.trans h.stop, u ++ v, by rw [hu, hv, List.append_assoc],
    List.forall_mem_append.mpr ⟨hplain, hplain'⟩⟩

theorem Forth.suffix (h : Forth c c') : c'.rest <:+ c.rest := by
  obtain ⟨u, hu, -⟩ := h.rest
  exact ⟨u, hu.symm⟩

theorem Forth.length_le (h : Forth c c') : c'.rest.length ≤ c.rest.length := h.suffix.length_le

theorem Forth.ends (h : Forth c c') (hs : c.stop.kind = .stop) : c'.stop.kind = .stop := by
  rwa [h.stop]

theorem forth_along (h : Along c c') : Forth c c' := by
  obtain ⟨u, hu, hline⟩ := h
  refine ⟨hu.stop, u, hu.rest, fun t ht hk => ?_⟩
  have := hline t ht
  rw [hk] at this
  exact this

theorem forth_skip (hs : c.stop.kind = .stop) (hk : c.next.kind ≠ .stop) : Forth c (c.skip 1) :=
  ⟨rfl, [c.next], (takes_next hs hk).rest, List.forall_mem_singleton.mpr hk⟩

theorem forth_kind {kind : TokenKind} (hs : c.stop.kind = .stop) (hn : c.next.kind = kind)
    (hk : kind ≠ .stop) : Forth c (c.skip 1) :=
  forth_skip hs (by rwa [hn])

theorem forth_is {kind : TokenKind} {lexeme : String} (hs : c.stop.kind = .stop)
    (hn : c.next.is kind lexeme = true) (hk : kind ≠ .stop) : Forth c (c.skip 1) :=
  forth_kind hs (is_iff.mp hn).1 hk

theorem skip_length (hs : c.stop.kind = .stop) (hk : c.next.kind ≠ .stop) :
    (c.skip 1).rest.length + 1 = c.rest.length := by
  rw [(takes_next hs hk).rest]
  rfl

theorem forth_afterNewlines (c : Cursor) : Forth c c.afterNewlines := by
  refine ⟨rfl, c.rest.takeWhile (·.kind == .newline), List.takeWhile_append_dropWhile.symm, ?_⟩
  intro t ht hk
  have := List.mem_takeWhile_imp ht
  simp [hk] at this

/-- What is left of a list, without an END passed. -/
def Spares (ts rest : List Token) : Prop := ∃ u, ts = u ++ rest ∧ ∀ t ∈ u, t.kind ≠ .stop

theorem spares_refl (ts : List Token) : Spares ts ts := ⟨[], rfl, List.forall_mem_nil _⟩

theorem spares_cons {t : Token} {rest : List Token} (hk : t.kind ≠ .stop) (h : Spares ts rest) :
    Spares (t :: ts) rest := by
  obtain ⟨u, rfl, hu⟩ := h
  exact ⟨t :: u, rfl, List.forall_mem_cons.mpr ⟨hk, hu⟩⟩

theorem dropBlock_spares (depth : Nat) (ts : List Token) : Spares ts (dropBlock depth ts) := by
  induction ts generalizing depth with
  | nil => exact spares_refl _
  | cons t ts ih =>
    unfold dropBlock
    split
    · exact spares_refl _
    · next hk => exact spares_cons (by simp [hk]) (ih _)
    · next hk =>
      split
      · exact spares_cons (by simp [hk]) (spares_refl _)
      · exact spares_cons (by simp [hk]) (ih _)
    · next hk _ _ => exact spares_cons hk (ih _)

theorem dropLine_spares (ts : List Token) : Spares ts (dropLine ts) := by
  induction ts with
  | nil => exact spares_refl _
  | cons t ts ih =>
    unfold dropLine
    split
    · exact spares_refl _
    · exact spares_refl _
    · next hk =>
      refine spares_cons (by simp [hk]) ?_
      split
      · exact spares_refl _
      · split
        · exact dropBlock_spares 0 _
        · exact spares_refl _
    · next hk _ _ => exact spares_cons hk ih

theorem dropStatement_spares (ts : List Token) : Spares ts (dropStatement ts) := by
  unfold dropStatement
  split
  · exact spares_refl _
  · split
    · exact dropBlock_spares 0 _
    · exact dropLine_spares _

theorem forth_recovered (e : ParseError) (c : Cursor) : Forth c (c.recovered e) :=
  ⟨rfl, dropStatement_spares c.rest⟩

/-- An outcome further on, short of the first END. -/
def Advances (c : Cursor) : Outcome α → Prop
  | .ok _ c' => Forth c c'
  | .error _ c' => Forth c c'

theorem advances_after {r : Outcome α} (h : Forth c c') (hr : Advances c' r) : Advances c r := by
  cases r with
  | ok a c₁ => exact h.trans hr
  | error e c₁ => exact h.trans hr

theorem advances_bind {x : Rule β} {f : β → Rule α} (hx : Advances c (x c))
    (hf : ∀ b c', Forth c c' → Advances c' (f b c')) : Advances c ((x >>= f) c) := by
  rw [bind_apply]
  cases h : x c with
  | ok b c' =>
    rw [h] at hx
    exact advances_after hx (hf b c' hx)
  | error e c' =>
    rw [h] at hx
    exact hx

theorem advances_ite {p : Prop} [Decidable p] {r r' : Outcome α} (h : p → Advances c r)
    (k : ¬ p → Advances c r') : Advances c (if p then r else r') := by
  split
  · next hp => exact h hp
  · next hp => exact k hp

theorem advances_either {p : Prop} [Decidable p] {x y : Rule α} (h : Advances c (x c))
    (k : Advances c (y c)) : Advances c ((if p then x else y) c) := by
  split
  · exact h
  · exact k

theorem advances_inLine {r : Outcome α} (h : InLine ts c r) : Advances c r := by
  cases r with
  | ok a c' => exact forth_along h
  | error e c' => exact forth_along h.1

theorem advances_endsLine {r : Outcome α} (hs : c.stop.kind = .stop) (h : EndsLine ts c r) :
    Advances c r := by
  cases r with
  | ok a c' =>
    obtain ⟨c₁, ha, hn, rfl⟩ := h
    have hforth := forth_along ha
    exact hforth.trans (forth_kind (hforth.ends hs) hn nofun)
  | error e c' => exact forth_along h.1

theorem advances_expression {level : Nat} {f : Node → Rule α} (hs : c.stop.kind = .stop)
    (hf : ∀ e c', Forth c c' → Advances c' (f e c')) :
    Advances c ((expression fuel level >>= f) c) :=
  advances_bind (advances_inLine (expression_inLine fuel level (in_self hs))) hf

theorem advances_expect {kind : TokenKind} {lexeme what : String} {f : Unit → Rule α}
    (hs : c.stop.kind = .stop) (hk : kind ≠ .stop)
    (hf : ∀ c', Forth c c' → Advances c' (f () c')) :
    Advances c ((discard (expect kind lexeme what) >>= f) c) := by
  rw [expect_bind]
  refine advances_ite (fun hn => ?_) fun _ => Forth.refl c
  have h := forth_is hs hn hk
  exact advances_after h (hf _ h)

theorem advances_expectKind {kind : TokenKind} {what : String} {f : Token → Rule α}
    (hs : c.stop.kind = .stop) (hk : kind ≠ .stop)
    (hf : ∀ t c', Forth c c' → Advances c' (f t c')) :
    Advances c ((expectKind kind what >>= f) c) := by
  rw [expectKind_bind]
  refine advances_ite (fun hn => ?_) fun _ => Forth.refl c
  have h := forth_kind hs hn hk
  exact advances_after h (hf _ _ h)

theorem advances_expectToken {kind : TokenKind} {what : String} {f : Unit → Rule α}
    (hs : c.stop.kind = .stop) (hk : kind ≠ .stop)
    (hf : ∀ c', Forth c c' → Advances c' (f () c')) :
    Advances c ((discard (expectKind kind what) >>= f) c) := by
  rw [expectKind_discard_bind]
  refine advances_ite (fun hn => ?_) fun _ => Forth.refl c
  have h := forth_kind hs hn hk
  exact advances_after h (hf _ h)

theorem parameters_advance (fuel : Nat) (hs : c.stop.kind = .stop) :
    Advances c (parameters ")" "a parameter name" fuel [] c) :=
  advances_inLine (parameters_inLine ")" (by decide) fuel [] c (in_self hs))

/-- The rules for statements go on, short of the first END. -/
structure Advancing (fuel : Nat) : Prop where
  statements : ∀ context topLevel c, c.stop.kind = .stop →
    Advances c (statements fuel context topLevel c)
  statement : ∀ context c, c.stop.kind = .stop → Advances c (statement fuel context c)
  block : ∀ context header c, c.stop.kind = .stop → Advances c (block fuel context header c)
  elifs : ∀ context branches c, c.stop.kind = .stop → Advances c (elifs fuel context branches c)

variable {context : Context} {p : Position}

theorem ifTail_advances (ih : Advancing fuel) (hs : c.stop.kind = .stop) :
    Advances c (ifTail fuel context p c) := by
  unfold ifTail
  refine advances_expression hs fun _ c₁ h₁ => ?_
  have hs₁ := h₁.ends hs
  refine advances_bind (ih.block _ _ _ hs₁) fun _ c₂ h₂ => ?_
  have hs₂ := h₂.ends hs₁
  refine advances_bind (ih.elifs _ _ _ hs₂) fun _ c₃ h₃ => ?_
  have hs₃ := h₃.ends hs₂
  rw [accept_bind]
  refine advances_ite (fun hn => ?_) fun _ => Forth.refl c₃
  refine advances_after (forth_is hs₃ hn nofun) ?_
  exact advances_bind (ih.block _ _ _ hs₃) fun _ c₄ _ => Forth.refl c₄

theorem whileTail_advances (ih : Advancing fuel) (hs : c.stop.kind = .stop) :
    Advances c (whileTail fuel context p c) := by
  unfold whileTail
  refine advances_expression hs fun _ c₁ h₁ => ?_
  exact advances_bind (ih.block _ _ _ (h₁.ends hs)) fun _ c₂ _ => Forth.refl c₂

theorem forTail_advances (ih : Advancing fuel) (hs : c.stop.kind = .stop) :
    Advances c (forTail fuel context p c) := by
  unfold forTail
  refine advances_expectKind hs nofun fun _ c₁ h₁ => ?_
  have hs₁ := h₁.ends hs
  refine advances_expect hs₁ nofun fun c₂ h₂ => ?_
  have hs₂ := h₂.ends hs₁
  refine advances_expression hs₂ fun _ c₃ h₃ => ?_
  exact advances_bind (ih.block _ _ _ (h₃.ends hs₂)) fun _ c₄ _ => Forth.refl c₄

theorem defTail_advances (ih : Advancing fuel) (hs : c.stop.kind = .stop) :
    Advances c (defTail fuel p c) := by
  unfold defTail
  refine advances_expectKind hs nofun fun _ c₁ h₁ => ?_
  have hs₁ := h₁.ends hs
  refine advances_expect hs₁ nofun fun c₂ h₂ => ?_
  have hs₂ := h₂.ends hs₁
  refine advances_bind (parameters_advance _ hs₂) fun _ c₃ h₃ => ?_
  have hs₃ := h₃.ends hs₂
  refine advances_expect hs₃ nofun fun c₄ h₄ => ?_
  exact advances_bind (ih.block _ _ _ (h₄.ends hs₃)) fun _ c₅ _ => Forth.refl c₅

theorem statement_advances (ih : Advancing fuel) (context : Context) (c : Cursor)
    (hs : c.stop.kind = .stop) : Advances c (statement (fuel + 1) context c) := by
  have hin := in_self hs
  have hsimple := advances_endsLine hs (simpleStatement_endsLine fuel hin)
  rw [statement_succ]
  refine advances_ite (fun hk => ?_) fun _ => advances_ite (fun _ => Forth.refl c) fun _ => hsimple
  have hn : c.next.kind.OfLine := hk ▸ trivial
  have hword {x : Rule Node} (hx : Advances (c.skip 1) (x (c.skip 1))) :
      Advances c ((discard advance >>= fun _ => x) c) :=
    advances_after (forth_kind hs hk nofun) hx
  unfold wordRule
  apply advances_either (hword (ifTail_advances ih hs))
  apply advances_either (hword (whileTail_advances ih hs))
  apply advances_either (hword (forTail_advances ih hs))
  apply advances_either (hword (defTail_advances ih hs))
  apply advances_either (advances_endsLine hs (returnStatement_endsLine _ _ hin hn))
  apply advances_either (advances_endsLine hs (loopStatement_endsLine _ _ hin hn))
  apply advances_either (advances_endsLine hs (loopStatement_endsLine _ _ hin hn))
  apply advances_either (advances_endsLine hs (passStatement_endsLine hin hn))
  exact advances_either (advances_endsLine hs (deleteStatement_endsLine _ hin hn)) hsimple

theorem recovering_advances {rule : Rule Node} (h : Advances c (rule c)) :
    Advances c (recovering rule c) := by
  rw [recovering_apply]
  cases hr : rule c with
  | ok s c' =>
    rw [hr] at h
    exact h
  | error e c' =>
    rw [hr] at h
    cases e with
    | problem e => exact Forth.trans h (forth_recovered e c')
    | fault f => exact h
    | starved => exact h

theorem forth_stray (hs : c.stop.kind = .stop) (hd : c.next.kind = .dedent) (e : ParseError) :
    Forth c ((c.recording e).skip 1) :=
  ⟨rfl, (forth_kind hs hd nofun).rest⟩

theorem statements_advance (ih : Advancing fuel) (context : Context) (topLevel : Bool)
    (c : Cursor) (hs : c.stop.kind = .stop) :
    Advances c (statements (fuel + 1) context topLevel c) := by
  rw [statements_succ, statementsFrom]
  refine advances_after (forth_afterNewlines c) ?_
  have hs₁ : c.afterNewlines.stop.kind = .stop := hs
  generalize c.afterNewlines = c₁ at hs₁ ⊢
  refine advances_ite (fun _ => Forth.refl c₁) fun _ => advances_ite (fun hd => ?_) fun _ => ?_
  · refine advances_ite (fun _ => ?_) fun _ => Forth.refl c₁
    exact advances_after (forth_stray hs₁ hd _) (ih.statements _ _ _ hs₁)
  · refine advances_bind (recovering_advances (ih.statement _ _ hs₁)) fun s c₂ h₂ => ?_
    have hrest := ih.statements context topLevel c₂ (h₂.ends hs₁)
    cases s with
    | none => exact hrest
    | some s => exact advances_bind hrest fun _ c₃ _ => Forth.refl c₃

theorem block_advances (ih : Advancing fuel) (context : Context) (header : String) (c : Cursor)
    (hs : c.stop.kind = .stop) : Advances c (block (fuel + 1) context header c) := by
  rw [block_succ]
  refine advances_expect hs nofun fun c₁ h₁ => ?_
  have hs₁ := h₁.ends hs
  refine advances_expectToken hs₁ nofun fun c₂ h₂ => ?_
  have hs₂ := h₂.ends hs₁
  refine advances_expectToken hs₂ nofun fun c₃ h₃ => ?_
  have hs₃ := h₃.ends hs₂
  refine advances_bind (ih.statements _ _ _ hs₃) fun _ c₄ h₄ => ?_
  exact advances_expectToken (h₄.ends hs₃) nofun fun c₅ _ => Forth.refl c₅

theorem elifs_advance (ih : Advancing fuel) (context : Context)
    (branches : List (Node × List Node)) (c : Cursor) (hs : c.stop.kind = .stop) :
    Advances c (elifs (fuel + 1) context branches c) := by
  rw [elifs_succ]
  refine advances_ite (fun hn => ?_) fun _ => Forth.refl c
  refine advances_after (forth_is hs hn nofun) (advances_expression hs fun _ c₁ h₁ => ?_)
  have hs₁ := h₁.ends (c := c.skip 1) hs
  exact advances_bind (ih.block _ _ _ hs₁) fun _ c₂ h₂ => ih.elifs _ _ _ (h₂.ends hs₁)

theorem rules_advance (fuel : Nat) : Advancing fuel := by
  induction fuel with
  | zero => constructor <;> intros <;> exact Forth.refl _
  | succ fuel ih =>
    exact ⟨statements_advance ih, statement_advances ih, block_advances ih, elifs_advance ih⟩

end Offside.Parser
