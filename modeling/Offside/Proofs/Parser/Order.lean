import Offside.Proofs.Digit
import Offside.Proofs.Lexer.Slices
import Offside.Proofs.Parser.Recovery

/-!
How a source is refused. Either the lexer gives up at a place of the text, or the parser reports one
error or more, each at a place of the text; nothing else can happen but at a number that is spelled
with digits which its conversion does not take. Errors come in the order of the source: an error
that a rule fails with stands at the next token or at one that the rule has passed, after all that
is recorded by then and before all that is left, and recording it keeps errors and tokens in order.
-/

namespace Offside

namespace Parser

variable {ts : List Token}

/-- Tokens are read, or refused with errors at some of them, or one of them is at fault. -/
theorem parse_refuses (hts : ts ≠ []) :
    (∃ program, parse ts = .ok program) ∨
    (∃ es, parse ts = .error (.parse es) ∧ es ≠ [] ∧ ∀ e ∈ es, ∃ t ∈ ts, e.pos = t.pos) ∨
    ∃ f, parse ts = .error (.fault f) ∧ ∃ t ∈ ts, atom? t = some (.error f) := by
  have hstart : (Cursor.ofTokens ts).Sound ts none := ofTokens_sound hts nofun
  have hlen : (Cursor.ofTokens ts).rest.length ≤ ts.length := by
    obtain ⟨-, tail, htail, -⟩ := ofTokens_split ts
    conv_rhs => rw [htail, List.length_append]
    exact Nat.le_add_right _ _
  have hfed := (statements_sufficient (fuelFor ts)).statements ⟨false, false⟩ true _ hstart.kind
    (by rw [fuelFor]; omega)
  have hans := (rules_answer ts (fuelFor ts)).statements none ⟨false, false⟩ true _ nofun hstart
  rw [parse_eq]
  unfold verdict
  rcases hs : statements (fuelFor ts) ⟨false, false⟩ true (Cursor.ofTokens ts)
    with ⟨body, c⟩ | ⟨e, c⟩
  · rw [hs] at hans
    dsimp only
    cases he : c.errors with
    | nil => exact .inl ⟨_, rfl⟩
    | cons e es =>
      refine .inr (.inl ⟨e :: es, rfl, List.cons_ne_nil _ _, ?_⟩)
      rw [← he]
      exact fun e he => (hans.errors e he).2
  · rw [hs] at hans hfed
    obtain ⟨hraised, -⟩ := hans
    cases hraised with
    | problem _ _ => exact absurd rfl (statements_recovered hs _)
    | fault ht ha => exact .inr (.inr ⟨_, rfl, _, ht, ha⟩)
    | starved => exact absurd rfl hfed.1

end Parser

/-- A number whose digits its conversion does not take: an integer with digits beyond ASCII, or a
number with a point and with digits that are not decimal. -/
inductive Unconvertible (t : Token) : Fault → Prop where
  | integer {c : Char} : t.kind = .integer → c ∈ t.lexeme.toList → Text.isDigit c = true →
      c.isDigit = false → Unconvertible t (.invalidInteger t.lexeme)
  | float {c : Char} : t.kind = .float → c ∈ t.lexeme.toList → Text.isDigit c = true →
      Text.isDecimal c = false → Unconvertible t (.invalidFloat t.lexeme)

theorem unconvertible_of_fault {t : Token} {f : Fault}
    (ht : t.kind.OfLine → Lexer.Spells t.kind t.lexeme.toList)
    (h : Parser.atom? t = some (.error f)) : Unconvertible t f := by
  have hspell := ht (Parser.atom_ofLine h)
  unfold Parser.atom? at h
  split at h
  · next hk =>
    rw [hk] at hspell
    split at h
    · cases h
    · next hn =>
      cases h
      obtain ⟨c, hc, hd⟩ := Number.readInteger_none hspell hn
      exact .integer hk hc (hspell.2 c hc) hd
  · next hk =>
    rw [hk] at hspell
    split at h
    · cases h
    · next hn =>
      cases h
      obtain ⟨ds, fs, hcs, hds, hfs⟩ := hspell
      rw [hcs] at hn
      obtain ⟨c, hc, hd⟩ := Number.readFloat_none hds hfs hn
      have hmem : c ∈ t.lexeme.toList := by
        rw [hcs]
        rcases List.mem_append.mp hc with hc | hc
        · exact List.mem_append_left _ hc
        · exact List.mem_append_right _ (List.mem_cons_of_mem _ hc)
      refine .float hk hmem ?_ hd
      rcases List.mem_append.mp hc with hc | hc
      · exact hds.2 c hc
      · exact hfs.2 c hc
  · cases h
  · cases h
  · split_ifs at h <;> cases h
  · cases h

/-- Every source is a program, or is refused by the lexer or the parser with errors at places of its
text, unless it holds a number that cannot be converted. -/
theorem source_read_or_refused (source : String) :
    (∃ program, parseProgram source = .ok program) ∨
    (∃ e, parseProgram source = .error (.lex e) ∧ e.pos.IsIn source) ∨
    (∃ es, parseProgram source = .error (.parse es) ∧ es ≠ [] ∧ ∀ e ∈ es, e.pos.IsIn source) ∨
    ∃ ts t f, tokenize source = .ok ts ∧ t ∈ ts ∧ Unconvertible t f ∧
      parseProgram source = .error (.fault f) := by
  unfold parseProgram
  cases hts : tokenize source with
  | error e => exact .inr (.inl ⟨e, rfl, Lexer.tokenize_error hts⟩)
  | ok ts =>
    have hlegible := Lexer.tokenize_legible hts
    dsimp only
    rcases Parser.parse_refuses (Lexer.tokenize_ne_nil hts) with
      h | ⟨es, h, hne, hpos⟩ | ⟨f, h, t, ht, ha⟩
    · exact .inl h
    · refine .inr (.inr (.inl ⟨es, h, hne, fun e he => ?_⟩))
      obtain ⟨t, ht, hp⟩ := hpos e he
      exact hp ▸ (hlegible t ht).pos
    · have hf := unconvertible_of_fault (hlegible t ht).spelled ha
      exact .inr (.inr (.inr ⟨ts, t, f, rfl, ht, hf, h⟩))

/-- A superscript is a digit to the lexer, and no integer is made of it. -/
theorem superscript_not_refused :
    parseProgram "²\n" = .error (.fault (.invalidInteger "²")) := by
  have htokens : tokenize "²\n" = .ok [⟨.integer, "²", ⟨1, 1⟩⟩, ⟨.newline, "\n", ⟨1, 2⟩⟩,
      ⟨.stop, "", ⟨2, 1⟩⟩] := by
    decide +kernel
  unfold parseProgram
  rw [htokens]
  cbv

/-! ### Places in order -/

namespace Parser

variable {α β : Type} {c c' c₁ : Cursor} {p : Position}

namespace Cursor

/-- The tokens to come, the end among them. -/
def ahead (c : Cursor) : List Token := c.rest ++ [c.stop]

theorem next_mem_ahead (c : Cursor) : c.next ∈ c.ahead := by
  unfold next ahead
  cases c.rest <;> simp

/-- A place where an error may be recorded next: no error so far stands after it, and no token to
come before it. -/
structure Fits (c : Cursor) (p : Position) : Prop where
  errors : ∀ e ∈ c.errors, ¬ p.Before e.pos
  tokens : ∀ t ∈ c.ahead, ¬ t.pos.Before p

/-- Errors in the order of the source, then tokens in that order. -/
structure Ordered (c : Cursor) : Prop where
  errors : c.errors.Pairwise fun e e' => ¬ e'.pos.Before e.pos
  tokens : c.ahead.Pairwise fun t u => ¬ u.pos.Before t.pos
  apart : ∀ e ∈ c.errors, ∀ t ∈ c.ahead, ¬ t.pos.Before e.pos

end Cursor

/-- Further on in the same list, with no error more. -/
structure Onward (c c' : Cursor) : Prop where
  rest : c'.rest <:+ c.rest
  stop : c'.stop = c.stop
  errors : c'.errors = c.errors

theorem Onward.refl (c : Cursor) : Onward c c := ⟨List.suffix_refl _, rfl, rfl⟩

theorem Onward.trans (h : Onward c c₁) (k : Onward c₁ c') : Onward c c' :=
  ⟨k.rest.trans h.rest, k.stop.trans h.stop, k.errors.trans h.errors⟩

theorem Onward.ahead (h : Onward c c') : c'.ahead <:+ c.ahead := by
  obtain ⟨u, hu⟩ := h.rest
  refine ⟨u, ?_⟩
  unfold Cursor.ahead
  rw [h.stop, ← hu, List.append_assoc]

theorem onward_skip (c : Cursor) (n : Nat) : Onward c (c.skip n) :=
  ⟨List.drop_suffix n c.rest, rfl, rfl⟩

theorem onward_afterNewlines (c : Cursor) : Onward c c.afterNewlines :=
  ⟨List.dropWhile_suffix _, rfl, rfl⟩

theorem Cursor.Fits.onward (h : c.Fits p) (ha : Onward c c') : c'.Fits p :=
  ⟨ha.errors ▸ h.errors, fun t ht => h.tokens t (ha.ahead.subset ht)⟩

namespace Cursor.Ordered

theorem onward (h : c.Ordered) (ha : Onward c c') : c'.Ordered :=
  ⟨ha.errors ▸ h.errors, h.tokens.sublist ha.ahead.sublist,
    fun e he t ht => h.apart e (ha.errors ▸ he) t (ha.ahead.subset ht)⟩

theorem after_skip (h : c.Ordered) (n : Nat) : (c.skip n).Ordered := h.onward (onward_skip c n)

theorem fits_next (h : c.Ordered) : c.Fits c.next.pos := by
  refine ⟨fun e he => h.apart e he _ c.next_mem_ahead, fun t ht => ?_⟩
  have htokens := h.tokens
  unfold Cursor.ahead at ht htokens
  unfold Cursor.next
  cases hr : c.rest with
  | nil =>
    rw [hr] at ht
    obtain rfl := List.mem_singleton.mp ht
    exact Position.Before.irrefl _
  | cons u rest =>
    rw [hr] at ht htokens
    rcases List.mem_cons.mp ht with rfl | ht
    · exact Position.Before.irrefl _
    · exact List.rel_of_pairwise_cons htokens ht

theorem after_recording (h : c.Ordered) {e : ParseError} (he : c.Fits e.pos) :
    (c.recording e).Ordered := by
  refine ⟨List.pairwise_append.mpr ⟨h.errors, List.pairwise_singleton _ _, ?_⟩, h.tokens, ?_⟩
  · intro e' he' _ hmem
    obtain rfl := List.mem_singleton.mp hmem
    exact he.errors e' he'
  · exact List.forall_mem_append.mpr ⟨h.apart, List.forall_mem_singleton.mpr he.tokens⟩

theorem after_recovery (h : c.Ordered) {e : ParseError} (he : c.Fits e.pos) : (c.recovered e).Ordered :=
  (h.after_recording he).onward ⟨dropStatement_suffix c.rest, rfl, rfl⟩

end Cursor.Ordered

/-! ### Expressions -/

/-- An outcome further on, past the place of what it gives or of the error that it fails with. -/
def Trails (place : α → Option Position) (c : Cursor) : Outcome α → Prop
  | .ok a c' => Onward c c' ∧ ∀ p ∈ place a, c'.Fits p
  | .error (.problem e) c' => Onward c c' ∧ c'.Fits e.pos
  | .error _ _ => True

/-- The place that an error about a node is given. -/
def nodePlace (n : Node) : Option Position := some n.position

def noPlace (_ : α) : Option Position := none

variable {P : α → Option Position} {Q : β → Option Position}

theorem trails_after {r : Outcome α} (h : Onward c c') (hr : Trails P c' r) : Trails P c r := by
  rcases r with ⟨a, c₁⟩ | ⟨e | _ | _, c₁⟩
  · exact ⟨h.trans hr.1, hr.2⟩
  · exact ⟨h.trans hr.1, hr.2⟩
  · trivial
  · trivial

theorem trails_bind {x : Rule β} {f : β → Rule α} (hc : c.Ordered) (hx : Trails Q c (x c))
    (hf : ∀ b c', Onward c c' → c'.Ordered → (∀ p ∈ Q b, c'.Fits p) → Trails P c' (f b c')) :
    Trails P c ((x >>= f) c) := by
  rw [bind_apply]
  cases h : x c with
  | ok b c' =>
    rw [h] at hx
    exact trails_after hx.1 (hf b c' hx.1 (hc.onward hx.1) hx.2)
  | error e c' =>
    rw [h] at hx
    cases e <;> exact hx

theorem trails_ite {p : Prop} [Decidable p] {r r' : Outcome α} (h : Trails P c r)
    (k : Trails P c r') : Trails P c (if p then r else r') := by
  by_cases hp : p
  · rwa [if_pos hp]
  · rwa [if_neg hp]

theorem trails_skip {r : Outcome α} (n : Nat) (hc : c.Ordered)
    (hr : (c.skip n).Ordered → Trails P (c.skip n) r) : Trails P c r :=
  trails_after (onward_skip c n) (hr (hc.after_skip n))

theorem trails_ok (a : α) (h : ∀ p ∈ P a, c.Fits p) : Trails P c (.ok a c) := ⟨.refl c, h⟩

theorem trails_list (a : α) : Trails noPlace c (.ok a c) := trails_ok a nofun

theorem trails_node {n : Node} (h : c.Fits n.position) : Trails nodePlace c (.ok n c) :=
  trails_ok n fun _ hp => Option.some.inj hp ▸ h

theorem trails_problem {f : ParseFault} (hc : c.Ordered) :
    Trails P c (.error (.problem ⟨f, c.next.pos⟩) c) :=
  ⟨.refl c, hc.fits_next⟩

theorem trails_lacking {what : String} (hc : c.Ordered) : Trails P c (lacking what c) :=
  trails_problem hc

theorem trails_expect {kind : TokenKind} {lexeme what : String} {f : Unit → Rule α}
    (hc : c.Ordered) (hf : ∀ c', Onward c c' → c'.Ordered → Trails P c' (f () c')) :
    Trails P c ((discard (expect kind lexeme what) >>= f) c) := by
  rw [expect_bind]
  exact trails_ite (trails_skip 1 hc (hf _ (onward_skip c 1))) (trails_lacking hc)

theorem trails_expectKind {kind : TokenKind} {what : String} {f : Token → Rule α}
    (hc : c.Ordered) (hf : ∀ t c', Onward c c' → c'.Ordered → Trails P c' (f t c')) :
    Trails P c ((expectKind kind what >>= f) c) := by
  rw [expectKind_bind]
  exact trails_ite (trails_skip 1 hc (hf _ _ (onward_skip c 1))) (trails_lacking hc)

theorem trails_afterItem {close what : String} {more : Rule α} {done : α} (hc : c.Ordered)
    (hmore : ∀ c', c'.Ordered → Trails noPlace c' (more c')) :
    Trails noPlace c (afterItem close what more done c) := by
  rw [afterItem_apply]
  exact trails_ite (trails_skip 1 hc (hmore _))
    (trails_ite (trails_skip 1 hc fun _ => trails_list done) (trails_lacking hc))

/-- A name given twice is passed before it is found to be so. -/
theorem parameters_trail (close what : String) (fuel : Nat) :
    ∀ ps c, c.Ordered → Trails noPlace c (parameters close what fuel ps c) := by
  induction fuel with
  | zero => exact fun _ _ _ => trivial
  | succ fuel ih =>
    intro ps c hc
    have hname : (c.skip 1).Fits c.next.pos := hc.fits_next.onward (onward_skip c 1)
    rw [parameters_succ]
    refine trails_ite (trails_list ps) (trails_ite (trails_ite ⟨onward_skip c 1, hname⟩ ?_)
      (trails_lacking hc))
    exact trails_ite (trails_skip 2 hc (ih _ _)) (trails_skip 1 hc fun _ => trails_list _)

/-- The rules for expressions go past the nodes that they give, or past their errors. -/
structure Trailing (fuel : Nat) : Prop where
  expression : ∀ level c, c.Ordered → Trails nodePlace c (expression fuel level c)
  climb : ∀ level left c, c.Ordered → c.Fits left.position →
    Trails nodePlace c (climb fuel level left c)
  operand : ∀ level c, c.Ordered → Trails nodePlace c (operand fuel level c)
  postfixes : ∀ node c, c.Ordered → c.Fits node.position →
    Trails nodePlace c (postfixes fuel node c)
  sequence : ∀ close what items c, c.Ordered →
    Trails noPlace c (sequence fuel close what items c)
  entries : ∀ read c, c.Ordered → Trails noPlace c (entries fuel read c)
  primary : ∀ c, c.Ordered → Trails nodePlace c (primary fuel c)

variable {fuel : Nat}

theorem climb_trails (ih : Trailing fuel) (level : Nat) (left : Node) (c : Cursor)
    (hc : c.Ordered) (hl : c.Fits left.position) :
    Trails nodePlace c (climb (fuel + 1) level left c) := by
  rw [climb_succ]
  cases binaryOperator? c.next c.second with
  | none => exact trails_node hl
  | some o =>
    obtain ⟨op, opLevel, width⟩ := o
    refine trails_ite (trails_node hl) (trails_skip width hc fun hc₁ => ?_)
    refine trails_bind hc₁ (ih.expression _ _ hc₁) fun right c₂ ha hc₂ _ => ?_
    exact ih.climb _ _ _ hc₂ (hc.fits_next.onward ((onward_skip c width).trans ha))

theorem operand_trails (ih : Trailing fuel) (level : Nat) (c : Cursor) (hc : c.Ordered) :
    Trails nodePlace c (operand (fuel + 1) level c) := by
  have hnext {c' : Cursor} (ha : Onward (c.skip 1) c') : c'.Fits c.next.pos :=
    hc.fits_next.onward ((onward_skip c 1).trans ha)
  have hunary (op : Json) (tighter : Nat) : Trails nodePlace c
      ((expression fuel tighter >>= fun e => pure (.unaryOp c.next.pos op e)) (c.skip 1)) := by
    refine trails_skip 1 hc fun hc₁ => ?_
    exact trails_bind hc₁ (ih.expression _ _ hc₁) fun e c₂ ha _ _ => trails_node (hnext ha)
  rw [operand_succ]
  refine trails_ite (trails_ite (trails_problem hc) (hunary _ _)) (trails_ite (hunary _ _)
    (trails_ite (trails_ite (trails_problem hc) (trails_skip 1 hc fun hc₁ => ?_)) ?_))
  · refine trails_bind hc₁ (parameters_trail _ _ _ _ _ hc₁) fun params c₂ ha₂ hc₂ _ => ?_
    refine trails_expect hc₂ fun c₃ ha₃ hc₃ => ?_
    refine trails_bind hc₃ (ih.expression _ _ hc₃) fun body c₄ ha₄ _ _ => ?_
    exact trails_node (hnext (ha₂.trans (ha₃.trans ha₄)))
  · exact trails_bind hc (ih.primary _ hc) fun node c₁ _ hc₁ hn =>
      ih.postfixes _ _ hc₁ (hn _ rfl)

theorem postfixes_trail (ih : Trailing fuel) (node : Node) (c : Cursor) (hc : c.Ordered)
    (hn : c.Fits node.position) : Trails nodePlace c (postfixes (fuel + 1) node c) := by
  have hnode {c' : Cursor} (ha : Onward (c.skip 1) c') : c'.Fits node.position :=
    hn.onward ((onward_skip c 1).trans ha)
  rw [postfixes_succ]
  refine trails_ite (trails_skip 1 hc fun hc₁ => ?_) (trails_ite (trails_skip 1 hc fun hc₁ => ?_)
    (trails_ite (trails_skip 1 hc fun hc₁ => ?_) (trails_node hn)))
  · refine trails_bind hc₁ (ih.sequence _ _ _ _ hc₁) fun args c₂ ha hc₂ _ => ?_
    exact ih.postfixes _ _ hc₂ (hnode ha)
  · refine trails_bind hc₁ (ih.expression _ _ hc₁) fun index c₂ ha₂ hc₂ _ => ?_
    refine trails_expect hc₂ fun c₃ ha₃ hc₃ => ?_
    exact ih.postfixes _ _ hc₃ (hnode (ha₂.trans ha₃))
  · refine trails_expectKind hc₁ fun name c₂ ha hc₂ => ?_
    exact ih.postfixes _ _ hc₂ (hnode ha)

theorem sequence_trails (ih : Trailing fuel) (close what : String) (items : List Node)
    (c : Cursor) (hc : c.Ordered) :
    Trails noPlace c (sequence (fuel + 1) close what items c) := by
  rw [sequence_succ]
  refine trails_ite (trails_skip 1 hc fun _ => trails_list items) ?_
  refine trails_bind hc (ih.expression _ _ hc) fun item c₁ _ hc₁ _ => ?_
  exact trails_afterItem hc₁ fun c₂ hc₂ => ih.sequence _ _ _ _ hc₂

theorem entries_trail (ih : Trailing fuel) (read : List (Node × Node)) (c : Cursor)
    (hc : c.Ordered) : Trails noPlace c (entries (fuel + 1) read c) := by
  rw [entries_succ]
  refine trails_ite (trails_skip 1 hc fun _ => trails_list read) ?_
  refine trails_bind hc (ih.expression _ _ hc) fun key c₁ _ hc₁ _ => ?_
  refine trails_expect hc₁ fun c₂ _ hc₂ => ?_
  refine trails_bind hc₂ (ih.expression _ _ hc₂) fun value c₃ _ hc₃ _ => ?_
  exact trails_afterItem hc₃ fun c₄ hc₄ => ih.entries _ _ hc₄

theorem atom_position {t : Token} {n : Node} (h : atom? t = some (.ok n)) : n.position = t.pos := by
  unfold atom? at h
  split at h
  · split at h <;> cases h
    rfl
  · split at h <;> cases h
    rfl
  · cases h
    rfl
  · cases h
    rfl
  · split_ifs at h <;> cases h <;> rfl
  · cases h

theorem primary_trails (ih : Trailing fuel) (c : Cursor) (hc : c.Ordered) :
    Trails nodePlace c (primary (fuel + 1) c) := by
  have hnext {c' : Cursor} (ha : Onward (c.skip 1) c') : c'.Fits c.next.pos :=
    hc.fits_next.onward ((onward_skip c 1).trans ha)
  rw [primary_succ]
  rcases ha : atom? c.next with _ | f | node
  · refine trails_ite (trails_skip 1 hc fun hc₁ => ?_) (trails_ite (trails_skip 1 hc fun hc₁ => ?_)
      (trails_ite (trails_skip 1 hc fun hc₁ => ?_) (trails_lacking hc)))
    · refine trails_bind hc₁ (ih.expression _ _ hc₁) fun inner c₂ _ hc₂ hi => ?_
      exact trails_expect hc₂ fun c₃ ha₃ _ => trails_node ((hi _ rfl).onward ha₃)
    · exact trails_bind hc₁ (ih.sequence _ _ _ _ hc₁) fun items c₂ ha₂ _ _ => trails_node (hnext ha₂)
    · exact trails_bind hc₁ (ih.entries _ _ hc₁) fun read c₂ ha₂ _ _ => trails_node (hnext ha₂)
  · trivial
  · refine trails_skip 1 hc fun _ => trails_node ?_
    rw [atom_position ha]
    exact hnext (.refl _)

theorem rules_trail (fuel : Nat) : Trailing fuel := by
  induction fuel with
  | zero => constructor <;> intros <;> trivial
  | succ fuel ih =>
    refine ⟨?_, climb_trails ih, operand_trails ih, postfixes_trail ih, sequence_trails ih,
      entries_trail ih, primary_trails ih⟩
    intro level c hc
    rw [expression_succ]
    exact trails_bind hc (ih.operand _ _ hc) fun left c₁ _ hc₁ hl => ih.climb _ _ _ hc₁ (hl _ rfl)

/-! ### Statements -/

/-- An outcome with errors and tokens in order, also with the error that it fails with. -/
def InOrder : Outcome α → Prop
  | .ok _ c => c.Ordered
  | .error (.problem e) c => c.Ordered ∧ c.Fits e.pos
  | .error _ _ => True

theorem inOrder_of_trails {r : Outcome α} (hc : c.Ordered) (h : Trails P c r) : InOrder r := by
  rcases r with ⟨a, c'⟩ | ⟨e | _ | _, c'⟩
  · exact hc.onward h.1
  · exact ⟨hc.onward h.1, h.2⟩
  · trivial
  · trivial

theorem inOrder_bind {x : Rule β} {f : β → Rule α} (hx : InOrder (x c))
    (hf : ∀ b c', c'.Ordered → InOrder (f b c')) : InOrder ((x >>= f) c) := by
  rw [bind_apply]
  cases h : x c with
  | ok b c' =>
    rw [h] at hx
    exact hf b c' hx
  | error e c' =>
    rw [h] at hx
    cases e <;> exact hx

theorem inOrder_ite {p : Prop} [Decidable p] {r r' : Outcome α} (h : InOrder r)
    (k : InOrder r') : InOrder (if p then r else r') := by
  by_cases hp : p
  · rwa [if_pos hp]
  · rwa [if_neg hp]

theorem inOrder_either {p : Prop} [Decidable p] {x y : Rule α} (h : InOrder (x c))
    (k : InOrder (y c)) : InOrder ((if p then x else y) c) := by
  by_cases hp : p
  · rwa [if_pos hp]
  · rwa [if_neg hp]

theorem inOrder_problem {f : ParseFault} (hc : c.Ordered) :
    InOrder (.error (.problem ⟨f, c.next.pos⟩) c : Outcome α) :=
  ⟨hc, hc.fits_next⟩

theorem inOrder_expect {kind : TokenKind} {lexeme what : String} {f : Unit → Rule α}
    (hc : c.Ordered) (hf : ∀ c', c'.Ordered → InOrder (f () c')) :
    InOrder ((discard (expect kind lexeme what) >>= f) c) := by
  rw [expect_bind]
  exact inOrder_ite (hf _ (hc.after_skip 1)) (inOrder_problem hc)

theorem inOrder_expectKind {kind : TokenKind} {what : String} {f : Token → Rule α}
    (hc : c.Ordered) (hf : ∀ t c', c'.Ordered → InOrder (f t c')) :
    InOrder ((expectKind kind what >>= f) c) := by
  rw [expectKind_bind]
  exact inOrder_ite (hf _ _ (hc.after_skip 1)) (inOrder_problem hc)

theorem inOrder_expectToken {kind : TokenKind} {what : String} {f : Unit → Rule α}
    (hc : c.Ordered) (hf : ∀ c', c'.Ordered → InOrder (f () c')) :
    InOrder ((discard (expectKind kind what) >>= f) c) := by
  rw [expectKind_discard_bind]
  exact inOrder_ite (hf _ (hc.after_skip 1)) (inOrder_problem hc)

theorem inOrder_endOfLine {a : α} (hc : c.Ordered) :
    InOrder ((endOfLine >>= fun _ => pure a) c) := by
  rw [endOfLine_bind]
  exact inOrder_ite (hc.after_skip 1) (inOrder_problem hc)

/-- After an expression, an error about it may be recorded. -/
theorem inOrder_expression {level : Nat} {f : Node → Rule α} (hc : c.Ordered)
    (hf : ∀ e c', c'.Ordered → c'.Fits e.position → InOrder (f e c')) :
    InOrder ((expression fuel level >>= f) c) := by
  have hexpr := (rules_trail fuel).expression level c hc
  rw [bind_apply]
  rcases h : expression fuel level c with ⟨e, c'⟩ | ⟨e | _ | _, c'⟩
  · rw [h] at hexpr
    exact hf e c' (hc.onward hexpr.1) (hexpr.2 _ rfl)
  · rw [h] at hexpr
    exact ⟨hc.onward hexpr.1, hexpr.2⟩
  · trivial
  · trivial

theorem simpleStatement_inOrder (fuel : Nat) (hc : c.Ordered) :
    InOrder (simpleStatement fuel c) := by
  rw [simpleStatement_apply]
  refine inOrder_expression hc fun expr c₁ hc₁ hexpr => ?_
  rw [simpleTail_apply]
  refine inOrder_ite (inOrder_ite ?_ ⟨hc₁, hexpr⟩) (inOrder_endOfLine hc₁)
  exact inOrder_expression (hc₁.after_skip 1) fun _ _ hc₂ _ => inOrder_endOfLine hc₂

theorem returnStatement_inOrder (fuel : Nat) (context : Context) (hc : c.Ordered) :
    InOrder (returnStatement fuel context c) := by
  rw [returnStatement_apply]
  refine inOrder_ite (inOrder_ite (inOrder_endOfLine (hc.after_skip 1)) ?_) (inOrder_problem hc)
  exact inOrder_expression (hc.after_skip 1) fun _ _ hc₁ _ => inOrder_endOfLine hc₁

theorem loopStatement_inOrder (context : Context) (build : Place → Node) (hc : c.Ordered) :
    InOrder (loopStatement context build c) := by
  rw [loopStatement_apply]
  exact inOrder_ite (inOrder_endOfLine (hc.after_skip 1)) (inOrder_problem hc)

theorem passStatement_inOrder (hc : c.Ordered) : InOrder (passStatement c) := by
  rw [passStatement_apply]
  exact inOrder_endOfLine (hc.after_skip 1)

theorem deleteStatement_inOrder (fuel : Nat) (hc : c.Ordered) :
    InOrder (deleteStatement fuel c) := by
  rw [deleteStatement_apply]
  refine inOrder_expression (hc.after_skip 1) fun target c₁ hc₁ htarget => ?_
  unfold deleteTail
  split
  · exact inOrder_endOfLine hc₁
  · exact ⟨hc₁, htarget⟩

/-- The rules for statements keep errors and tokens in order. -/
structure Ordering (fuel : Nat) : Prop where
  statements : ∀ context topLevel c, c.Ordered → InOrder (statements fuel context topLevel c)
  statement : ∀ context c, c.Ordered → InOrder (statement fuel context c)
  block : ∀ context header c, c.Ordered → InOrder (block fuel context header c)
  elifs : ∀ context branches c, c.Ordered → InOrder (elifs fuel context branches c)

variable {context : Context}

theorem ifTail_inOrder (ih : Ordering fuel) (hc : c.Ordered) :
    InOrder (ifTail fuel context p c) := by
  unfold ifTail
  refine inOrder_expression hc fun _ c₁ hc₁ _ => ?_
  refine inOrder_bind (ih.block _ _ _ hc₁) fun _ c₂ hc₂ => ?_
  refine inOrder_bind (ih.elifs _ _ _ hc₂) fun branches c₃ hc₃ => ?_
  rw [accept_bind]
  exact inOrder_ite (inOrder_bind (ih.block _ _ _ (hc₃.after_skip 1)) fun _ _ hc₄ => hc₄) hc₃

theorem whileTail_inOrder (ih : Ordering fuel) (hc : c.Ordered) :
    InOrder (whileTail fuel context p c) := by
  unfold whileTail
  refine inOrder_expression hc fun _ c₁ hc₁ _ => ?_
  exact inOrder_bind (ih.block _ _ _ hc₁) fun _ _ hc₂ => hc₂

theorem forTail_inOrder (ih : Ordering fuel) (hc : c.Ordered) :
    InOrder (forTail fuel context p c) := by
  unfold forTail
  refine inOrder_expectKind hc fun name c₁ hc₁ => ?_
  refine inOrder_expect hc₁ fun c₂ hc₂ => ?_
  refine inOrder_expression hc₂ fun _ c₃ hc₃ _ => ?_
  exact inOrder_bind (ih.block _ _ _ hc₃) fun _ _ hc₄ => hc₄

theorem defTail_inOrder (ih : Ordering fuel) (hc : c.Ordered) :
    InOrder (defTail fuel p c) := by
  unfold defTail
  refine inOrder_expectKind hc fun name c₁ hc₁ => ?_
  refine inOrder_expect hc₁ fun c₂ hc₂ => ?_
  have hparams := parameters_trail ")" "a parameter name" fuel [] c₂ hc₂
  refine inOrder_bind (inOrder_of_trails hc₂ hparams) fun params c₃ hc₃ => ?_
  refine inOrder_expect hc₃ fun c₄ hc₄ => ?_
  exact inOrder_bind (ih.block _ _ _ hc₄) fun _ _ hc₅ => hc₅

theorem statement_inOrder (ih : Ordering fuel) (context : Context) (c : Cursor)
    (hc : c.Ordered) : InOrder (statement (fuel + 1) context c) := by
  have hsimple := simpleStatement_inOrder fuel hc
  have hword {x : Rule Node} (hx : InOrder (x (c.skip 1))) :
      InOrder ((discard advance >>= fun _ => x) c) := hx
  have hafter : (c.skip 1).Ordered := hc.after_skip 1
  rw [statement_succ]
  refine inOrder_ite ?_ (inOrder_ite (inOrder_problem hc) hsimple)
  unfold wordRule
  apply inOrder_either (hword (ifTail_inOrder ih hafter))
  apply inOrder_either (hword (whileTail_inOrder ih hafter))
  apply inOrder_either (hword (forTail_inOrder ih hafter))
  apply inOrder_either (hword (defTail_inOrder ih hafter))
  apply inOrder_either (returnStatement_inOrder fuel context hc)
  apply inOrder_either (loopStatement_inOrder context _ hc)
  apply inOrder_either (loopStatement_inOrder context _ hc)
  apply inOrder_either (passStatement_inOrder hc)
  exact inOrder_either (deleteStatement_inOrder fuel hc) hsimple

theorem recovering_inOrder {rule : Rule Node} (h : InOrder (rule c)) :
    InOrder (recovering rule c) := by
  rw [recovering_apply]
  rcases hr : rule c with ⟨s, c'⟩ | ⟨e | _ | _, c'⟩
  · rw [hr] at h
    exact h
  · rw [hr] at h
    exact h.1.after_recovery h.2
  · trivial
  · trivial

theorem statements_inOrder (ih : Ordering fuel) (context : Context) (topLevel : Bool)
    (c : Cursor) (hc : c.Ordered) : InOrder (statements (fuel + 1) context topLevel c) := by
  rw [statements_succ, statementsFrom]
  have hlines : c.afterNewlines.Ordered := hc.onward (onward_afterNewlines c)
  refine inOrder_ite hlines (inOrder_ite (inOrder_ite ?_ hlines) ?_)
  · exact ih.statements _ _ _ ((hlines.after_recording hlines.fits_next).after_skip 1)
  · refine inOrder_bind (recovering_inOrder (ih.statement _ _ hlines)) fun s c₁ hc₁ => ?_
    cases s with
    | none => exact ih.statements _ _ _ hc₁
    | some s => exact inOrder_bind (ih.statements _ _ _ hc₁) fun _ _ hc₂ => hc₂

theorem block_inOrder (ih : Ordering fuel) (context : Context) (header : String) (c : Cursor)
    (hc : c.Ordered) : InOrder (block (fuel + 1) context header c) := by
  rw [block_succ]
  refine inOrder_expect hc fun c₁ hc₁ => ?_
  refine inOrder_expectToken hc₁ fun c₂ hc₂ => ?_
  refine inOrder_expectToken hc₂ fun c₃ hc₃ => ?_
  refine inOrder_bind (ih.statements _ _ _ hc₃) fun body c₄ hc₄ => ?_
  exact inOrder_expectToken hc₄ fun _ hc₅ => hc₅

theorem elifs_inOrder (ih : Ordering fuel) (context : Context)
    (branches : List (Node × List Node)) (c : Cursor) (hc : c.Ordered) :
    InOrder (elifs (fuel + 1) context branches c) := by
  rw [elifs_succ]
  refine inOrder_ite ?_ hc
  refine inOrder_expression (hc.after_skip 1) fun _ c₁ hc₁ _ => ?_
  exact inOrder_bind (ih.block _ _ _ hc₁) fun _ _ hc₂ => ih.elifs _ _ _ hc₂

theorem rules_inOrder (fuel : Nat) : Ordering fuel := by
  induction fuel with
  | zero => constructor <;> intros <;> trivial
  | succ fuel ih =>
    exact ⟨statements_inOrder ih, statement_inOrder ih, block_inOrder ih, elifs_inOrder ih⟩

/-! ### Lists of tokens -/

variable {ts : List Token}

theorem ofTokens_ordered (h : ts.Pairwise fun t u => ¬ u.pos.Before t.pos) :
    (Cursor.ofTokens ts).Ordered := by
  unfold Cursor.ofTokens
  split
  · exact ⟨.nil, List.pairwise_singleton _ _, nofun⟩
  · next last hlast =>
    obtain ⟨us, rfl⟩ := List.getLast?_eq_some_iff.mp hlast
    split
    · refine ⟨.nil, ?_, nofun⟩
      simpa [Cursor.ahead] using h
    · refine ⟨.nil, List.pairwise_append.mpr ⟨h, List.pairwise_singleton _ _, ?_⟩, nofun⟩
      intro t ht _ hstop
      obtain rfl := List.mem_singleton.mp hstop
      rcases List.mem_append.mp ht with ht | ht
      · exact (List.pairwise_append.mp h).2.2 t ht last (List.mem_singleton.mpr rfl)
      · obtain rfl := List.mem_singleton.mp ht
        exact Position.Before.irrefl _

/-- The errors in tokens that stand one after another come in the same order. -/
theorem parse_errors_ordered {es : List ParseError}
    (h : ts.Pairwise fun t u => ¬ u.pos.Before t.pos) (herrors : parse ts = .error (.parse es)) :
    es.Pairwise fun e e' => ¬ e'.pos.Before e.pos := by
  obtain ⟨hstop, tail, htail, -⟩ := ofTokens_split ts
  have hlen : (Cursor.ofTokens ts).rest.length ≤ ts.length := by
    conv_rhs => rw [htail, List.length_append]
    exact Nat.le_add_right _ _
  have hfed := (statements_sufficient (fuelFor ts)).statements ⟨false, false⟩ true _ hstop
    (by rw [fuelFor]; omega)
  have hall := (rules_inOrder (fuelFor ts)).statements ⟨false, false⟩ true _ (ofTokens_ordered h)
  rw [parse_eq] at herrors
  unfold verdict at herrors
  rcases hs : statements (fuelFor ts) ⟨false, false⟩ true (Cursor.ofTokens ts)
    with ⟨body, c⟩ | ⟨e | _ | _, c⟩
  · rw [hs] at hall herrors
    dsimp only at herrors
    split at herrors <;> cases herrors
    exact hall.errors
  · exact absurd rfl (statements_recovered hs e)
  · rw [hs] at herrors
    cases herrors
  · rw [hs] at hfed
    exact absurd rfl hfed.1

end Parser

/-- What a text is refused for is at least one error, each stands at one of its tokens, and none
stands before one that is reported earlier. -/
theorem errors_in_source_order {source : String} {ts : List Token} {es : List ParseError}
    (hts : tokenize source = .ok ts) (h : Parser.parse ts = .error (.parse es)) :
    es ≠ [] ∧ (∀ e ∈ es, ∃ t ∈ ts, e.pos = t.pos) ∧
      es.Pairwise fun e e' => ¬ e'.pos.Before e.pos := by
  have hordered := Parser.parse_errors_ordered (Lexer.tokenize_faithful hts).rising h
  rcases Parser.parse_refuses (Lexer.tokenize_ne_nil hts) with
    ⟨program, hp⟩ | ⟨es', hes, hne, hpos⟩ | ⟨f, hf, -⟩
  · rw [h] at hp
    cases hp
  · rw [h] at hes
    cases hes
    exact ⟨hne, hpos, hordered⟩
  · rw [h] at hf
    cases hf

/-- Two errors in a block, the first about a target that is passed when it is found, and one in the
header after it. -/
theorem block_errors_in_source_order :
    let ts : List Token := [⟨.keyword, "if", ⟨1, 1⟩⟩, ⟨.identifier, "a", ⟨1, 4⟩⟩,
      ⟨.delimiter, ":", ⟨1, 5⟩⟩, ⟨.newline, "\n", ⟨1, 6⟩⟩, ⟨.indent, "", ⟨2, 2⟩⟩,
      ⟨.string, "'b'", ⟨2, 2⟩⟩, ⟨.operator, "=", ⟨2, 6⟩⟩, ⟨.identifier, "c", ⟨2, 8⟩⟩,
      ⟨.newline, "\n", ⟨2, 9⟩⟩, ⟨.identifier, "d", ⟨3, 2⟩⟩, ⟨.identifier, "e", ⟨3, 4⟩⟩,
      ⟨.newline, "\n", ⟨3, 5⟩⟩, ⟨.dedent, "", ⟨4, 1⟩⟩, ⟨.keyword, "elif", ⟨4, 1⟩⟩,
      ⟨.newline, "\n", ⟨4, 5⟩⟩, ⟨.stop, "", ⟨5, 1⟩⟩]
    let es : List ParseError := [⟨.notAssignable, ⟨2, 2⟩⟩,
      ⟨.expected "end of line" ⟨.identifier, "e", ⟨3, 4⟩⟩, ⟨3, 4⟩⟩,
      ⟨.expected "an expression" ⟨.newline, "\n", ⟨4, 5⟩⟩, ⟨4, 5⟩⟩]
    tokenize "if a:\n 'b' = c\n d e\nelif\n" = .ok ts ∧ Parser.parse ts = .error (.parse es) ∧
      es ≠ [] ∧ (∀ e ∈ es, ∃ t ∈ ts, e.pos = t.pos) ∧
      es.Pairwise fun e e' => ¬ e'.pos.Before e.pos := by
  intro ts es
  have htokens : tokenize "if a:\n 'b' = c\n d e\nelif\n" = .ok ts := by
    decide +kernel
  have hparse : Parser.parse ts = .error (.parse es) := by
    cbv
  exact ⟨htokens, hparse, errors_in_source_order htokens hparse⟩

end Offside
