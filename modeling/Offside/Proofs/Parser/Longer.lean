import Offside.Proofs.Parser.Locality

/-!
Tokens that go on. What is read without an error from some tokens is read from them again when
others follow, unless these go on with its last statement: no rule looks past the statement that it
reads for anything but another branch. The places of DEDENTs play no part in it.
-/

namespace Offside.Parser

variable {α β : Type} {more : List Token} {stop : Token} {c c' c₁ : Cursor}

/-- The tokens of a list in a longer one, where its DEDENTs may stand elsewhere. -/
inductive Grown (more : List Token) : List Token → List Token → Prop where
  | nil : Grown more [] more
  | same {t : Token} {ts us : List Token} : Grown more ts us → Grown more (t :: ts) (t :: us)
  | dedent {t u : Token} {ts us : List Token} : t.kind = .dedent → u.kind = .dedent →
      Grown more ts us → Grown more (t :: ts) (u :: us)

/-- A cursor in a list and one at the same token of a longer list. -/
structure Wider (more : List Token) (stop : Token) (c c' : Cursor) : Prop where
  rest : Grown more c.rest c'.rest
  kind : c.stop.kind = .stop
  stop : c'.stop = stop
  errors : c'.errors = c.errors

/-- No branch of the statement before. -/
def NoBranch (t : Token) : Prop := ∀ w ∈ ["elif", "else"], t.is .keyword w = false

theorem noBranch_stop (h : c.stop.kind = .stop) : NoBranch (([] : List Token).headD c.stop) := by
  intro w _
  simp [Token.is, h]

/-- The tokens end in a line that has no end. -/
def Loose (ts : List Token) : Prop :=
  ∃ l t ds, ts = l ++ t :: ds ∧ t.kind.OfLine ∧ ∀ d ∈ ds, d.kind = .dedent

/-- The line that the cursor stands in has an end. -/
def Cursor.Lined (c : Cursor) : Prop :=
  ∃ l nl r, c.rest = l ++ nl :: r ∧ (∀ t ∈ l, t.kind.OfLine) ∧ nl.kind = .newline

/-! ### Lines -/

theorem loose_tail {t : Token} {ts : List Token} (h : Loose (t :: ts))
    (ht : ¬ t.kind.OfLine ∨ ∃ n ∈ ts, n.kind = .newline) : Loose ts := by
  obtain ⟨l, u, ds, he, hu, hds⟩ := h
  cases l with
  | nil =>
    obtain ⟨rfl, rfl⟩ := List.cons.inj he
    rcases ht with ht | ⟨n, hn, hk⟩
    · exact absurd hu ht
    · rw [hds n hn] at hk
      cases hk
  | cons v l =>
    obtain ⟨rfl, rfl⟩ := List.cons.inj he
    exact ⟨l, u, ds, rfl, hu, hds⟩

theorem loose_later {u ts : List Token} (h : Loose (u ++ ts)) (hn : ∃ n ∈ ts, n.kind = .newline) :
    Loose ts := by
  induction u with
  | nil => exact h
  | cons t u ih =>
    obtain ⟨n, hmem, hk⟩ := hn
    exact ih (loose_tail h (.inr ⟨n, List.mem_append_right u hmem, hk⟩))

theorem Cursor.Lined.newline (h : c.Lined) : ∃ n ∈ c.rest, n.kind = .newline := by
  obtain ⟨l, nl, r, hr, -, hk⟩ := h
  exact ⟨nl, by simp [hr], hk⟩

theorem lined_along (h : Along c c₁) (hl : c₁.Lined) : c.Lined := by
  obtain ⟨u, hu, hline⟩ := h
  obtain ⟨l, nl, r, hr, hl, hk⟩ := hl
  refine ⟨u ++ l, nl, r, ?_, List.forall_mem_append.mpr ⟨hline, hl⟩, hk⟩
  rw [hu.rest, hr, List.append_assoc]

theorem loose_along (h : Along c c₁) (hl : c₁.Lined) (hc : Loose c.rest) : Loose c₁.rest := by
  obtain ⟨u, hu, -⟩ := h
  rw [hu.rest] at hc
  exact loose_later hc hl.newline

/-! ### The same token -/

namespace Wider

variable (h : Wider more stop c c')
include h

/-- The next token is the same, unless there is none or it is a DEDENT. -/
theorem next_eq (hk : c.next.kind ≠ .stop) (hd : c.next.kind ≠ .dedent) : c'.next = c.next := by
  have hrest := h.rest
  have hstop := h.kind
  unfold Cursor.next at hk hd ⊢
  generalize c.rest = ts at hrest hk hd
  generalize c'.rest = us at hrest
  cases hrest with
  | nil => exact absurd hstop hk
  | same => rfl
  | dedent ht => exact absurd ht hd

theorem next_kind (hk : c.next.kind ≠ .stop) : c'.next.kind = c.next.kind := by
  have hrest := h.rest
  have hstop := h.kind
  unfold Cursor.next at hk ⊢
  generalize c.rest = ts at hrest hk
  generalize c'.rest = us at hrest
  cases hrest with
  | nil => exact absurd hstop hk
  | same => rfl
  | dedent ht hu => exact hu.trans ht.symm

theorem after_skip (hk : c.next.kind ≠ .stop) : Wider more stop (c.skip 1) (c'.skip 1) := by
  refine ⟨?_, h.kind, h.stop, h.errors⟩
  have hrest := h.rest
  have hstop := h.kind
  unfold Cursor.next at hk
  rw [Cursor.skip_rest, Cursor.skip_rest]
  generalize c.rest = ts at hrest hk
  generalize c'.rest = us at hrest
  cases hrest with
  | nil => exact absurd hstop hk
  | same hrest => exact hrest
  | dedent _ _ hrest => exact hrest

theorem afterNewlines (hk : c.afterNewlines.next.kind ≠ .stop) :
    Wider more stop c.afterNewlines c'.afterNewlines := by
  refine ⟨?_, h.kind, h.stop, h.errors⟩
  have hrest := h.rest
  have hstop := h.kind
  unfold Cursor.next at hk
  unfold Cursor.afterNewlines at hk ⊢
  dsimp only at hk ⊢
  generalize c'.rest = us at hrest
  generalize c.rest = ts at hrest hk
  induction hrest with
  | nil => exact absurd hstop hk
  | @same t ts us hrest ih =>
    rw [List.dropWhile_cons] at hk
    rw [List.dropWhile_cons, List.dropWhile_cons]
    by_cases ht : (t.kind == .newline) = true
    · rw [if_pos ht] at hk
      rw [if_pos ht, if_pos ht]
      exact ih hk
    · rw [if_neg ht, if_neg ht]
      exact .same hrest
  | @dedent t u ts us ht hu hrest =>
    rw [List.dropWhile_cons, List.dropWhile_cons, if_neg (by simp [ht]), if_neg (by simp [hu])]
    exact .dedent ht hu hrest

theorem noBranch (hmore : NoBranch (more.headD stop)) {w : String} (hw : w ∈ ["elif", "else"])
    (hn : c.next.is .keyword w = false) : c'.next.is .keyword w = false := by
  have hrest := h.rest
  unfold Cursor.next at hn ⊢
  generalize c.rest = ts at hrest hn
  generalize hus : c'.rest = us at hrest
  cases hrest with
  | nil =>
    rw [h.stop]
    exact hmore w hw
  | same => exact hn
  | dedent _ hu => simp [Token.is, hu]

/-- The same line, with its end. -/
theorem line (hl : c.Lined) : ∃ l nl r r', (∀ t ∈ l, t.kind.OfLine) ∧ Grown more r r' ∧
    c = Beyond.before ⟨r, c.stop, c.errors⟩ nl l ∧
    c' = Beyond.before ⟨r', c'.stop, c'.errors⟩ nl l := by
  obtain ⟨l, nl, r, hr, hl, hk⟩ := hl
  have hrest := h.rest
  obtain ⟨rest, cstop, es⟩ := c
  obtain ⟨rest', cstop', es'⟩ := c'
  obtain rfl : rest = l ++ nl :: r := hr
  have hgrown : ∃ r', rest' = l ++ nl :: r' ∧ Grown more r r' := by
    dsimp only at hrest
    clear h
    induction l generalizing rest' with
    | nil =>
      rw [List.nil_append] at hrest
      cases hrest with
      | same hrest => exact ⟨_, rfl, hrest⟩
      | dedent ht =>
        rw [hk] at ht
        cases ht
    | cons t l ih =>
      obtain ⟨ht, hl⟩ := List.forall_mem_cons.mp hl
      rw [List.cons_append] at hrest
      cases hrest with
      | same hrest =>
        obtain ⟨r', rfl, hr'⟩ := ih hl _ hrest
        exact ⟨r', rfl, hr'⟩
      | dedent hd =>
        rw [hd] at ht
        exact ht.elim
  obtain ⟨r', rfl, hr'⟩ := hgrown
  exact ⟨l, ⟨nl, hk⟩, r, r', hl, hr', rfl, rfl⟩

end Wider

theorem Grown.append {ts us : List Token} (h : Grown more ts us) (l : List Token) :
    Grown more (l ++ ts) (l ++ us) := by
  induction l with
  | nil => exact h
  | cons t l ih => exact .same ih

/-! ### What a rule keeps -/

/-- A reading without an error, which is the same in every longer list. -/
structure Kept (more : List Token) (stop : Token) (x : Rule α) (a : α) (c c₁ : Cursor) : Prop where
  errors : c.errors = []
  loose : Loose c.rest → Loose c₁.rest
  wider : ∀ {c'}, Wider more stop c c' → ∃ c₁', x c' = .ok a c₁' ∧ Wider more stop c₁ c₁'

/-- What the rule reads without an error, it reads in every longer list. -/
def Keeps (more : List Token) (stop : Token) (x : Rule α) (c : Cursor) : Prop :=
  c.stop.kind = .stop → ∀ ⦃a c₁⦄, x c = .ok a c₁ →
    c₁.stop.kind = .stop ∧ (c₁.errors = [] → Kept more stop x a c c₁)

/-- And the line in which it begins has an end. -/
def EndsLined (more : List Token) (stop : Token) (x : Rule α) (c : Cursor) : Prop :=
  c.stop.kind = .stop → ∀ ⦃a c₁⦄, x c = .ok a c₁ →
    c₁.stop.kind = .stop ∧ (c₁.errors = [] → c.Lined ∧ Kept more stop x a c c₁)

section

variable {x : Rule β} {f : β → Rule α} {a : α} {b : β} {c₂ : Cursor}

theorem EndsLined.keeps {x : Rule α} (h : EndsLined more stop x c) : Keeps more stop x c :=
  fun hs _ _ hx => ⟨(h hs hx).1, fun he => ((h hs hx).2 he).2⟩

theorem Kept.bind (hx : Kept more stop x b c c₁) (hf : Kept more stop (f b) a c₁ c₂) :
    Kept more stop (x >>= f) a c c₂ where
  errors := hx.errors
  loose h := hf.loose (hx.loose h)
  wider h := by
    obtain ⟨c₁', hx', hw⟩ := hx.wider h
    obtain ⟨c₂', hf', hw'⟩ := hf.wider hw
    exact ⟨c₂', (bind_ok hx').trans hf', hw'⟩

theorem keeps_pure (a : α) : Keeps more stop (pure a : Rule α) c := by
  rintro hs _ _ ⟨⟩
  exact ⟨hs, fun he => ⟨he, id, fun h => ⟨_, rfl, h⟩⟩⟩

theorem keeps_bind (hx : Keeps more stop x c) (hf : ∀ b c₁, Keeps more stop (f b) c₁) :
    Keeps more stop (x >>= f) c := by
  intro hs a c₂ h
  obtain ⟨b, c₁, hb, ha⟩ := bind_ok_iff.mp h
  obtain ⟨hs₁, hkept⟩ := hx hs hb
  obtain ⟨hs₂, hkept'⟩ := hf b c₁ hs₁ ha
  exact ⟨hs₂, fun he => (hkept (hkept' he).errors).bind (hkept' he)⟩

theorem endsLined_then (hx : EndsLined more stop x c) (hf : ∀ b c₁, Keeps more stop (f b) c₁) :
    EndsLined more stop (x >>= f) c := by
  intro hs a c₂ h
  obtain ⟨b, c₁, hb, ha⟩ := bind_ok_iff.mp h
  obtain ⟨hs₁, hkept⟩ := hx hs hb
  obtain ⟨hs₂, hkept'⟩ := hf b c₁ hs₁ ha
  refine ⟨hs₂, fun he => ?_⟩
  obtain ⟨hl, hx⟩ := hkept (hkept' he).errors
  exact ⟨hl, hx.bind (hkept' he)⟩

end

/-! ### Inside a line -/

/-- A rule that stays in its line, and is settled by it. -/
structure Inline (x : Rule α) : Prop where
  along : ∀ {c a c₁}, c.stop.kind = .stop → x c = .ok a c₁ → Along c c₁
  settled : ∀ nl l, Settled nl l fun k => x (k.before nl l)

theorem in_self (h : c.stop.kind = .stop) : c.In (c.rest ++ [c.stop]) := by
  refine ⟨h, ⟨c.stop, by simp, rfl⟩, ?_⟩
  simp [Cursor.ofTokens, h]

theorem expression_inline (fuel level : Nat) : Inline (expression fuel level) where
  along hs h := by
    have hline := expression_inLine fuel level (in_self hs)
    rw [h] at hline
    exact hline
  settled nl l := expression_settled fuel level l

theorem parameters_inline (close : String) {what : String} (hw : what ≠ "end of block")
    (fuel : Nat) (ps : List String) : Inline (parameters close what fuel ps) where
  along hs h := by
    have hline := parameters_inLine close hw fuel ps _ (in_self hs)
    rw [h] at hline
    exact hline
  settled nl l := parameters_settled close what fuel ps l

theorem Along.stop_eq (h : Along c c₁) : c₁.stop = c.stop := h.choose_spec.1.stop

theorem Along.errors_eq (h : Along c c₁) : c₁.errors = c.errors := h.choose_spec.1.errors

section

variable {x : Rule β} {f : β → Rule α}

/-- In a line that has an end, such a rule reads the same in every longer list. -/
theorem Inline.kept (hx : Inline x) {b : β} (hs : c.stop.kind = .stop) (h : x c = .ok b c₁)
    (hl : c₁.Lined) (he : c₁.errors = []) : Kept more stop x b c c₁ := by
  have ha := hx.along hs h
  refine ⟨ha.errors_eq ▸ he, loose_along ha hl, fun {c'} hw => ?_⟩
  obtain ⟨l, nl, r, r', hline, hr, hc, hc'⟩ := hw.line (lined_along ha hl)
  rw [hc] at h
  rw [hc']
  rcases hx.settled nl l with ⟨b', l', hl', hok⟩ | ⟨e, l', -, herror⟩
  · have hsame := (hok _).symm.trans h
    cases hsame
    refine ⟨_, hok _, ?_, hs, hw.stop, hw.errors⟩
    exact (Grown.same hr).append l'
  · cases (herror _).symm.trans h

theorem endsLined_bind (hx : Inline x) (hf : ∀ b c₁, EndsLined more stop (f b) c₁) :
    EndsLined more stop (x >>= f) c := by
  intro hs a c₂ h
  obtain ⟨b, c₁, hb, ha⟩ := bind_ok_iff.mp h
  have halong := hx.along hs hb
  have hs₁ : c₁.stop.kind = .stop := halong.stop_eq ▸ hs
  obtain ⟨hs₂, hkept⟩ := hf b c₁ hs₁ ha
  refine ⟨hs₂, fun he => ?_⟩
  obtain ⟨hl, hf⟩ := hkept he
  exact ⟨lined_along halong hl, (hx.kept hs hb hl hf.errors).bind hf⟩

/-- Passing over a token of the line. -/
theorem kept_advance {f : Unit → Rule α} {a : α} (hn : c.next.kind.OfLine) (hl : (c.skip 1).Lined)
    (hf : Kept more stop (f ()) a (c.skip 1) c₁) :
    c.Lined ∧ Kept more stop (discard advance >>= f) a c c₁ := by
  have ha := along_skip hn
  have hstop : c.next.kind ≠ .stop := fun h => by rw [h] at hn; exact hn
  refine ⟨lined_along ha hl, hf.errors, fun h => hf.loose (loose_along ha hl h), fun hw => ?_⟩
  exact hf.wider (hw.after_skip hstop)

theorem endsLined_advance {f : Unit → Rule α} (hn : c.next.kind.OfLine)
    (hf : EndsLined more stop (f ()) (c.skip 1)) :
    EndsLined more stop (discard advance >>= f) c := by
  intro hs a c₁ h
  obtain ⟨hs₁, hkept⟩ := hf hs (show f () (c.skip 1) = .ok a c₁ from h)
  refine ⟨hs₁, fun he => ?_⟩
  obtain ⟨hl, hf⟩ := hkept he
  exact kept_advance hn hl hf

theorem Cursor.Lined.next (h : c.Lined) : c.next.kind ≠ .stop ∧ c.next.kind ≠ .dedent := by
  obtain ⟨l, nl, r, hr, hl, hk⟩ := h
  unfold Cursor.next
  rw [hr]
  cases l with
  | nil => simp [hk]
  | cons t l =>
    have ht := hl t List.mem_cons_self
    constructor
    all_goals
      intro h
      rw [List.cons_append, List.headD_cons] at h
      rw [h] at ht
      exact ht

/-- Looking at the next token. -/
theorem endsLined_peek {f : Token → Rule α} (hf : EndsLined more stop (f c.next) c) :
    EndsLined more stop (peek >>= f) c := by
  intro hs a c₁ h
  obtain ⟨hs₁, hkept⟩ := hf hs (show f c.next c = .ok a c₁ from h)
  refine ⟨hs₁, fun he => ?_⟩
  obtain ⟨hl, hf⟩ := hkept he
  refine ⟨hl, hf.errors, hf.loose, fun {c'} hw => ?_⟩
  rw [peek_bind, hw.next_eq hl.next.1 hl.next.2]
  exact hf.wider hw

theorem endsLined_ite {p : Prop} [Decidable p] {x y : Rule α} (hx : p → EndsLined more stop x c)
    (hy : ¬ p → EndsLined more stop y c) : EndsLined more stop (if p then x else y) c := by
  split
  · next hp => exact hx hp
  · next hp => exact hy hp

theorem endsLined_fail {fault : ParseFault} {pos : Position} :
    EndsLined more stop (fail fault pos : Rule α) c := by
  rintro - a c₁ ⟨⟩

/-- The end of the line. -/
theorem endsLined_endOfLine (a : α) : EndsLined more stop (endOfLine >>= fun _ => pure a) c := by
  intro hs b c₁ h
  rw [endOfLine_bind] at h
  split at h
  · next hn =>
    cases h
    have hstop : c.next.kind ≠ .stop := by simp [hn]
    obtain ⟨u, hu⟩ : ∃ u, c.rest = c.next :: u := by
      have hnext := (takes_next hs hstop).rest
      exact ⟨_, hnext⟩
    refine ⟨hs, fun he => ⟨⟨[], c.next, u, hu, List.forall_mem_nil _, hn⟩, he, ?_, ?_⟩⟩
    · intro hloose
      rw [hu] at hloose
      rw [Cursor.skip_rest, hu]
      exact loose_tail hloose (.inl (by simp [hn, TokenKind.OfLine]))
    · intro c' hw
      refine ⟨c'.skip 1, ?_, hw.after_skip hstop⟩
      rw [endOfLine_bind, if_pos ((hw.next_kind hstop).trans hn)]
      rfl
  · cases h

theorem endsLined_expect {kind : TokenKind} {lexeme what : String} {f : Unit → Rule α}
    (hk : kind.OfLine) (hf : EndsLined more stop (f ()) (c.skip 1)) :
    EndsLined more stop (discard (expect kind lexeme what) >>= f) c := by
  intro hs a c₁ h
  rw [expect_bind] at h
  split at h
  · next hn =>
    have hline : c.next.kind.OfLine := (is_iff.mp hn).1 ▸ hk
    have hstep : (discard advance >>= f) c = .ok a c₁ := h
    obtain ⟨hs₁, hkept⟩ := endsLined_advance hline hf hs hstep
    refine ⟨hs₁, fun he => ?_⟩
    obtain ⟨hl, hkept⟩ := hkept he
    refine ⟨hl, hkept.errors, hkept.loose, fun {c'} hw => ?_⟩
    rw [expect_bind, hw.next_eq hl.next.1 hl.next.2, if_pos hn]
    exact hkept.wider hw
  · cases h

theorem endsLined_expectKind {kind : TokenKind} {what : String} {f : Token → Rule α}
    (hk : kind.OfLine) (hf : EndsLined more stop (f c.next) (c.skip 1)) :
    EndsLined more stop (expectKind kind what >>= f) c := by
  intro hs a c₁ h
  rw [expectKind_bind] at h
  split at h
  · next hn =>
    have hstep : (discard advance >>= fun _ => f c.next) c = .ok a c₁ := h
    obtain ⟨hs₁, hkept⟩ := endsLined_advance (hn ▸ hk) hf hs hstep
    refine ⟨hs₁, fun he => ?_⟩
    obtain ⟨hl, hkept⟩ := hkept he
    refine ⟨hl, hkept.errors, hkept.loose, fun {c'} hw => ?_⟩
    rw [expectKind_bind, hw.next_eq hl.next.1 hl.next.2, if_pos hn]
    exact hkept.wider hw
  · cases h

end

end Offside.Parser
