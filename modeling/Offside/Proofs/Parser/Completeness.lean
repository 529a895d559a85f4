import Offside.Proofs.Parser.Level

/-!
What the grammar derives is read, given enough fuel and unless the next token goes on with it. A
derivation in a layer leaves the parser in the climbing loop with its tree on the left, so that
the operators that follow may still extend it.
-/

namespace Offside.Parser

open Grammar

variable {α β : Type} {c c' c₁ : Cursor} {e : Node} {u v w : List Token}

/-- With enough fuel the rule succeeds. -/
def Yields (rule : Nat → Rule α) (c : Cursor) (a : α) (c' : Cursor) : Prop :=
  ∃ n, ∀ fuel, n ≤ fuel → rule fuel c = .ok a c'

theorem yields_pure (a : α) (c : Cursor) : Yields (fun _ => pure a) c a c := ⟨0, fun _ _ => rfl⟩

theorem yields_step {rule : Nat → Rule α} (body : Nat → Rule α) {a : α}
    (heq : ∀ fuel, rule (fuel + 1) c = body fuel c₁) (h : Yields body c₁ a c') :
    Yields rule c a c' := by
  obtain ⟨n, hn⟩ := h
  refine ⟨n + 1, ?_⟩
  intro fuel hf
  obtain ⟨m, rfl⟩ : ∃ m, fuel = m + 1 := ⟨fuel - 1, by omega⟩
  rw [heq, hn m (by omega)]

theorem yields_bind {rule : Nat → Rule α} {f : Nat → α → Rule β} {a : α} {b : β}
    (h : Yields rule c a c₁) (hf : Yields (fun fuel => f fuel a) c₁ b c') :
    Yields (fun fuel => rule fuel >>= f fuel) c b c' := by
  obtain ⟨m, hm⟩ := h
  obtain ⟨n, hn⟩ := hf
  refine ⟨max m n, ?_⟩
  intro fuel hle
  change (rule fuel >>= f fuel) c = _
  rw [bind_ok (hm fuel (by omega))]
  exact hn fuel (by omega)

theorem yields_congr {rule : Nat → Rule α} (body : Nat → Rule α) {a : α}
    (heq : ∀ fuel, rule fuel c = body fuel c₁) (h : Yields body c₁ a c') : Yields rule c a c' := by
  obtain ⟨n, hn⟩ := h
  exact ⟨n, fun fuel hf => by rw [heq, hn fuel hf]⟩

theorem Takes.split (h : Takes c (u ++ v) c') : ∃ c₁, Takes c u c₁ ∧ Takes c₁ v c' :=
  ⟨c.skip u.length, ⟨by simp [h.rest], rfl, rfl⟩, ⟨by simp [h.rest], h.stop, h.errors⟩⟩

/-- Nothing follows that binds tighter than `level`. -/
structure Follow (level : Nat) (c : Cursor) : Prop where
  suffix : ∀ lexeme ∈ ["(", "[", "."], c.next.is .delimiter lexeme = false
  operator : ∀ l, nextLevel? c = some l → l ≤ level

theorem Follow.mono {m n : Nat} (h : Follow m c) (hmn : m ≤ n) : Follow n c :=
  ⟨h.suffix, fun l hl => Nat.le_trans (h.operator l hl) hmn⟩

theorem Follow.below {m n : Nat} (h : Follow m c) (hmn : m < n) : Below n c :=
  fun l hl => Nat.lt_of_le_of_lt (h.operator l hl) hmn

theorem is_false {t : Token} {kind kind' : TokenKind} {lexeme lexeme' : String}
    (h : t.is kind lexeme = true) (hne : kind ≠ kind' ∨ lexeme ≠ lexeme') :
    t.is kind' lexeme' = false := by
  obtain ⟨rfl, rfl⟩ := is_iff.mp h
  rcases hne with h | h <;> simp [Token.is, h]

theorem follow_delimiter {lexeme : String} (h : c.next.is .delimiter lexeme = true)
    (hl : lexeme ∉ ["(", "[", "."]) : Follow 0 c := by
  refine ⟨fun l hm => is_false h (.inr ?_), ?_⟩
  · rintro rfl
    exact hl hm
  · intro l hn
    simp [nextLevel?, binaryOperator?, (is_iff.mp h).1] at hn

theorem follow_operator {op : String} {level width : Nat}
    (h : binaryOperator? c.next c.second = some (op, level, width)) : Follow level c := by
  constructor
  · intro lexeme _
    have hd : c.next.kind ≠ .delimiter := by
      intro hd
      simp [binaryOperator?, hd] at h
    simp [Token.is, hd]
  · intro l hl
    simp [nextLevel?, h] at hl
    omega

theorem climb_stays {level : Nat} (h : Below level c) (left : Node) :
    Yields (fun fuel => climb fuel level left) c left c := by
  refine yields_step (fun _ => pure left) ?_ (yields_pure left c)
  intro fuel
  rw [climb_succ]
  cases ho : binaryOperator? c.next c.second with
  | none => rfl
  | some o =>
    obtain ⟨op, l, width⟩ := o
    have hl : l < level := h l (by simp [nextLevel?, ho])
    dsimp only
    rw [if_pos hl]
    rfl

theorem postfixes_stay (h : ∀ lexeme ∈ ["(", "[", "."], c.next.is .delimiter lexeme = false)
    (node : Node) : Yields (fun fuel => postfixes fuel node) c node c := by
  refine yields_step (fun _ => pure node) ?_ (yields_pure node c)
  intro fuel
  rw [postfixes_succ, h "(" (by decide), h "[" (by decide), h "." (by decide)]
  rfl

/-! ### First tokens -/

/-- What an expression may start with. -/
structure Opens (s : Symbol) (t : Token) : Prop where
  kind : t.kind ∉ [.newline, .indent, .dedent, .stop]
  keyword : t.kind = .keyword → t.lexeme ∈ ["not", "lambda", "true", "false", "none"]
  delimiter : t.kind = .delimiter → t.lexeme ∈ ["(", "[", "\x7b"]
  word : s = .suffixed ∨ s = .atom → ∀ lexeme ∈ ["not", "lambda"], t.is .keyword lexeme = false
  minus : s = .suffixed ∨ s = .atom → t.is .operator "-" = false

def Headed : Phrase → List Token → Prop
  | .expr s _, u => ∃ t rest, u = t :: rest ∧ Opens s t
  | _, _ => True

theorem leaf_opens {s : Symbol} {t : Token} (h : Readable t e) : Opens s t := by
  obtain ⟨e', -, ha⟩ := h
  have word (hk : t.kind = .keyword) : t.lexeme ∈ ["true", "false", "none"] := by
    simp only [atom?, hk] at ha
    split_ifs at ha <;> simp [*]
  have kinds : t.kind ∉ [.newline, .indent, .dedent, .stop, .delimiter, .operator] := by
    intro hm
    simp only [List.mem_cons, List.not_mem_nil, or_false] at hm
    rcases hm with hk | hk | hk | hk | hk | hk <;> simp [atom?, hk] at ha
  simp only [List.mem_cons, List.not_mem_nil, or_false, not_or] at kinds
  obtain ⟨hn, hi, hd, hs, hdelim, hop⟩ := kinds
  refine ⟨by simp [hn, hi, hd, hs], fun hk => ?_, fun hk => absurd hk hdelim, fun _ l hl => ?_,
    fun _ => by simp [Token.is, hop]⟩
  · exact List.mem_cons_of_mem _ (List.mem_cons_of_mem _ (word hk))
  · cases hi : t.is .keyword l with
    | false => rfl
    | true =>
      obtain ⟨hk, rfl⟩ := is_iff.mp hi
      have hw := word hk
      simp only [List.mem_cons, List.not_mem_nil, or_false] at hl hw
      rcases hl with hl | hl <;> simp [hl] at hw

theorem bracket_opens {s : Symbol} {t : Token} {lexeme : String}
    (h : t.is .delimiter lexeme = true) (hl : lexeme ∈ ["(", "[", "\x7b"]) : Opens s t := by
  obtain ⟨hk, rfl⟩ := is_iff.mp h
  exact ⟨by simp [hk], by simp [hk], fun _ => hl, fun _ l _ => is_false h (.inl (by simp)),
    fun _ => is_false h (.inl (by simp))⟩

theorem prefixed_opens {s : Symbol} {t : Token}
    (hk : t.is .keyword "not" ∨ t.is .keyword "lambda" ∨ t.is .operator "-")
    (hs : s ≠ .suffixed ∧ s ≠ .atom) : Opens s t := by
  have hne : ¬ (s = .suffixed ∨ s = .atom) := by simp [hs]
  rcases hk with hk | hk | hk <;> obtain ⟨hk, hl⟩ := is_iff.mp hk <;>
    exact ⟨by simp [hk], by simp [hk, hl], by simp [hk], fun h => absurd h hne,
      fun h => absurd h hne⟩

theorem includes_opens {s s' : Symbol} {t : Token} (h : s.Includes s') (ho : Opens s' t) :
    Opens s t := by
  cases h with
  | atom =>
    exact ⟨ho.kind, ho.keyword, ho.delimiter, fun _ => ho.word (.inr rfl),
      fun _ => ho.minus (.inr rfl)⟩
  | _ => exact ⟨ho.kind, ho.keyword, ho.delimiter, fun h => by simp at h, fun h => by simp at h⟩

theorem derives_headed {p : Phrase} (h : Derives Readable p u) : Headed p u := by
  induction h with
  | unit hs _ ih =>
    obtain ⟨t, rest, rfl, ho⟩ := ih
    exact ⟨t, rest, rfl, includes_opens hs ho⟩
  | lambda hk => exact ⟨_, _, rfl, prefixed_opens (.inr (.inl hk)) (by simp)⟩
  | binary _ _ _ ih =>
    obtain ⟨t, rest, rfl, ho⟩ := ih
    exact ⟨t, _, rfl, ho⟩
  | negation hk => exact ⟨_, _, rfl, prefixed_opens (.inl hk) (by simp)⟩
  | minus hk => exact ⟨_, _, rfl, prefixed_opens (.inr (.inr hk)) (by simp)⟩
  | call _ _ _ _ ih =>
    obtain ⟨t, rest, rfl, ho⟩ := ih
    exact ⟨t, _, rfl, ho⟩
  | index _ _ _ _ ih =>
    obtain ⟨t, rest, rfl, ho⟩ := ih
    exact ⟨t, _, rfl, ho⟩
  | member _ _ _ ih =>
    obtain ⟨t, rest, rfl, ho⟩ := ih
    exact ⟨t, _, rfl, ho⟩
  | leaf hl => exact ⟨_, _, rfl, leaf_opens hl⟩
  | parens hk => exact ⟨_, _, rfl, bracket_opens hk (by decide)⟩
  | list hk => exact ⟨_, _, rfl, bracket_opens hk (by decide)⟩
  | map hk => exact ⟨_, _, rfl, bracket_opens hk (by decide)⟩
  | _ => trivial

/-- A token that starts a statement of its own. -/
structure Begins (t : Token) : Prop where
  kind : t.kind ∉ [.newline, .indent, .dedent, .stop]
  branch : t.is .keyword "elif" = false ∧ t.is .keyword "else" = false

theorem opens_begins {t : Token} (h : Opens .test t) : Begins t := by
  have hne : ∀ lexeme ∈ ["elif", "else"], t.is .keyword lexeme = false := by
    intro lexeme hl
    cases hk : t.is .keyword lexeme with
    | false => rfl
    | true =>
      obtain ⟨hkind, rfl⟩ := is_iff.mp hk
      have hm := h.keyword hkind
      simp only [List.mem_cons, List.not_mem_nil, or_false] at hl
      rcases hl with hl | hl <;> simp [hl] at hm
  exact ⟨h.kind, hne _ (by simp), hne _ (by simp)⟩

theorem keyword_begins {t : Token} {lexeme : String} (h : t.is .keyword lexeme = true)
    (hl : lexeme ∉ ["elif", "else"]) : Begins t := by
  obtain ⟨hk, rfl⟩ := is_iff.mp h
  simp only [List.mem_cons, List.not_mem_nil, or_false, not_or] at hl
  exact ⟨by simp [hk], by simp [Token.is, hl], by simp [Token.is, hl]⟩

theorem not_closing {s : Symbol} {lexeme : String} (h : Derives Readable (.expr s e) u)
    (ht : Takes c u c')    (hl : lexeme ∉ ["(", "[", "\x7b"]) : c.next.is .delimiter lexeme = false := by
  obtain ⟨t, rest, rfl, ho⟩ := derives_headed h
  rw [ht.next_eq]
  cases hi : t.is .delimiter lexeme with
  | false => rfl
  | true =>
    obtain ⟨hk, rfl⟩ := is_iff.mp hi
    exact absurd (ho.delimiter hk) hl

/-! ### Reading what is derived -/

/-- Reading up to where nothing goes on with an expression. -/
def Reads (rule : Nat → Rule Node) (e : Node) (u : List Token) : Prop :=
  ∀ c c', Takes c u c' → Follow 0 c' → ∃ e', e'.bare = e ∧ Yields rule c e' c'

/-- Reading leads into the climbing loop of any level that is not tighter than `n`. -/
def Climbs (n : Nat) (e : Node) (u : List Token) : Prop :=
  ∀ level c c', 1 ≤ level → level ≤ n → Takes c u c' → Follow n c' →
    ∃ e', e'.bare = e ∧ ∀ x c'', Yields (fun fuel => climb fuel level e') c' x c'' →
      Yields (fun fuel => expression fuel level) c x c''

/-- Reading leads into the loop over suffixes. -/
def Suffixes (e : Node) (u : List Token) : Prop :=
  ∀ c c', Takes c u c' → ∃ e', e'.bare = e ∧
    ∀ x c'', Yields (fun fuel => postfixes fuel e') c' x c'' →
      Yields (fun fuel => primary fuel >>= postfixes fuel) c x c''

/-- What completeness says of each kind of phrase. -/
def Completes : Phrase → List Token → Prop
  | .expr .test e, u => Reads (fun fuel => expression fuel loosest) e u
  | .expr .lambdef e, u => Reads (fun fuel => operand fuel loosest) e u
  | .expr .orTest e, u => Climbs 1 e u
  | .expr .andTest e, u => Climbs 2 e u
  | .expr .notTest e, u => Climbs 3 e u
  | .expr .comparison e, u => Climbs 4 e u
  | .expr .arith e, u => Climbs 5 e u
  | .expr .term e, u => Climbs 6 e u
  | .expr .factor e, u => Climbs 7 e u
  | .expr .suffixed e, u => Suffixes e u
  | .expr .atom e, u => ∀ c c', Takes c u c' → ∃ e', e'.bare = e ∧ Yields primary c e' c'
  | .items es, u => ∀ close what t c c', t.is .delimiter close → close ∈ [")", "]"] →
      Takes c (u ++ [t]) c' → ∃ es', Node.bareList es' = es ∧
        ∀ items, Yields (fun fuel => sequence fuel close what items) c (items ++ es') c'
  | .pairs ps, u => ∀ t c c', t.is .delimiter "\x7d" → Takes c (u ++ [t]) c' →
      ∃ ps', Node.barePairs ps' = ps ∧
        ∀ read, Yields (fun fuel => entries fuel read) c (read ++ ps') c'

theorem completes_layer {n : Nat} (h₁ : 1 ≤ n) (h₇ : n ≤ 7) :
    Completes (.expr (layer n) e) u ↔ Climbs n e u := by
  interval_cases n <;> rfl

theorem climbs_ends {n level : Nat} (h : Climbs n e u) (h₁ : 1 ≤ level) (hn : level ≤ n)
    (ht : Takes c u c') (hf : Follow n c') (hb : Below level c') :
    ∃ e', e'.bare = e ∧ Yields (fun fuel => expression fuel level) c e' c' := by
  obtain ⟨e', he, hy⟩ := h level c c' h₁ hn ht hf
  exact ⟨e', he, hy _ _ (climb_stays hb e')⟩

theorem climbs_operand {level : Nat} {x e' : Node} {c'' : Cursor}
    (ho : Yields (fun fuel => operand fuel level) c e' c')
    (hc : Yields (fun fuel => climb fuel level e') c' x c'') :
    Yields (fun fuel => expression fuel level) c x c'' := by
  refine yields_step (fun fuel => operand fuel level >>= climb fuel level) ?_
    (yields_bind ho hc)
  intro fuel
  rw [expression_succ]

theorem lambdef_completes (h : Completes (.expr .lambdef e) u) : Completes (.expr .test e) u := by
  intro c c' ht hf
  obtain ⟨e', he, hy⟩ := h c c' ht hf
  exact ⟨e', he, climbs_operand hy (climb_stays (hf.below (by decide)) e')⟩

theorem orTest_completes (h : Completes (.expr .orTest e) u) : Completes (.expr .test e) u := by
  intro c c' ht hf
  exact climbs_ends h (Nat.le_refl 1) (Nat.le_refl 1) ht (hf.mono (by decide))
    (hf.below (by decide))

theorem layer_completes {n : Nat} (h : Climbs (n + 1) e u) : Climbs n e u :=
  fun level c c' h₁ hn ht hf => h level c c' h₁ (Nat.le_succ_of_le hn) ht (hf.mono (Nat.le_succ n))

theorem operand_suffixed {level : Nat} {x : Node} {c'' : Cursor}
    (hd : Derives Readable (.expr .suffixed e) u) (ht : Takes c u c')
    (h : Yields (fun fuel => primary fuel >>= postfixes fuel) c x c'') :
    Yields (fun fuel => operand fuel level) c x c'' := by
  obtain ⟨t, rest, rfl, ho⟩ := derives_headed hd
  refine yields_step (fun fuel => primary fuel >>= postfixes fuel) ?_ h
  intro fuel
  rw [operand_succ, ht.next_eq, ho.word (.inl rfl) "not" (by decide), ho.minus (.inl rfl),
    ho.word (.inl rfl) "lambda" (by decide)]
  rfl

theorem suffixed_completes (hd : Derives Readable (.expr .suffixed e) u)
    (h : Completes (.expr .suffixed e) u) : Completes (.expr .factor e) u := by
  intro level c c' h₁ hn ht hf
  obtain ⟨e', he, hy⟩ := h c c' ht
  have hp := hy _ _ (postfixes_stay hf.suffix e')
  exact ⟨e', he, fun x c'' hx => climbs_operand (operand_suffixed hd ht hp) hx⟩

theorem atom_completes (h : Completes (.expr .atom e) u) : Completes (.expr .suffixed e) u := by
  intro c c' ht
  obtain ⟨e', he, hy⟩ := h c c' ht
  exact ⟨e', he, fun x c'' hx => yields_bind hy hx⟩

theorem unit_completes {s s' : Symbol} (hs : s.Includes s') (hd : Derives Readable (.expr s' e) u)
    (h : Completes (.expr s' e) u) : Completes (.expr s e) u := by
  cases hs with
  | lambdef => exact lambdef_completes h
  | orTest => exact orTest_completes h
  | suffixed => exact suffixed_completes hd h
  | atom => exact atom_completes h
  | andTest | notTest | comparison | arith | term | factor => exact layer_completes h

theorem binary_completes {s s' : Symbol} {op : String} {a b : Node}
    (ha : Completes (.expr s a) u) (ho : Operator s w op s') (hb : Completes (.expr s' b) v) :
    Completes (.expr s (.binaryOp .unknown op a b)) (u ++ w ++ v) := by
  obtain ⟨l, h₁, h₇, rfl, rfl, hop⟩ := operator_complete ho
  rw [completes_layer h₁ (by omega)] at ha ⊢
  rw [goal_of_lt (by omega), completes_layer (by omega) (by omega)] at hb
  intro level c c' hlevel hl ht hf
  obtain ⟨c₂, ht₂, hv⟩ := ht.split
  obtain ⟨c₁, hu, hw⟩ := ht₂.split
  have hnext := hop c₁ c₂ hw
  obtain ⟨a', rfl, hya⟩ := ha level c c₁ hlevel hl hu (follow_operator hnext)
  obtain ⟨b', rfl, hyb⟩ := climbs_ends hb (by omega) (Nat.le_refl _) hv (hf.mono (by omega))
    (hf.below (by omega))
  refine ⟨.binaryOp c₁.next.pos op a' b', rfl, fun x c'' hx => hya x c'' ?_⟩
  refine yields_step (fun fuel => expression fuel (l + 1) >>= fun right =>
    climb fuel level (.binaryOp c₁.next.pos op a' right)) ?_ (yields_bind hyb hx)
  intro fuel
  rw [climb_succ, hnext]
  dsimp only
  rw [if_neg (by omega), hw.skip_length]

theorem negation_completes {t : Token} (hk : t.is .keyword "not")
    (h : Completes (.expr .notTest e) u) :
    Completes (.expr .notTest (.unaryOp .unknown "not" e)) (t :: u) := by
  intro level c c' h₁ h₃ ht hf
  have hb : Below notLevel c' := fun l hl => by
    have := hf.operator l hl
    have := (nextLevel_bounds hl).2.2
    simp only [notLevel] at *
    omega
  obtain ⟨e', rfl, hy⟩ := climbs_ends h (by decide) (Nat.le_refl 3) ht.skip_one hf hb
  refine ⟨.unaryOp c.next.pos "not" e', rfl, fun x c'' hx => climbs_operand ?_ hx⟩
  refine yields_step (fun fuel => expression fuel notLevel >>= fun e =>
    pure (.unaryOp c.next.pos "not" e)) ?_ (yields_bind hy (yields_pure _ _))
  intro fuel
  have hlevel : ¬ notLevel < level := by simpa [notLevel] using h₃
  rw [operand_succ, if_pos (by rw [ht.next_eq, hk]), if_neg hlevel]

theorem minus_completes {t : Token} (hk : t.is .operator "-")
    (h : Completes (.expr .factor e) u) :
    Completes (.expr .factor (.unaryOp .unknown "-" e)) (t :: u) := by
  intro level c c' h₁ h₇ ht hf
  obtain ⟨e', rfl, hy⟩ := climbs_ends h (by decide) (Nat.le_refl 7) ht.skip_one hf
    fun l hl => (nextLevel_bounds hl).2.1
  refine ⟨.unaryOp c.next.pos "-" e', rfl, fun x c'' hx => climbs_operand ?_ hx⟩
  refine yields_step (fun fuel => expression fuel minusLevel >>= fun e =>
    pure (.unaryOp c.next.pos "-" e)) ?_ (yields_bind hy (yields_pure _ _))
  intro fuel
  rw [operand_succ, ht.next_eq, is_false hk (.inl (by simp)), if_neg Bool.false_ne_true, hk,
    if_pos rfl]

theorem names_complete {close what : String} {xs ps : List String} (hn : Names u xs)
    (hne : close ≠ ",") (ht : Takes c u c') (hc : c'.next.is .delimiter close = true)
    (hd : (ps ++ xs).Nodup) :
    Yields (fun fuel => parameters close what fuel ps) c (ps ++ xs) c' := by
  have fresh {x : String} {xs ps : List String} (hd : (ps ++ x :: xs).Nodup) :
      ¬ ps.contains x = true := by
    have := (List.nodup_append.mp hd).2.2
    simp only [List.contains_iff_mem]
    intro hx
    exact this x hx x List.mem_cons_self rfl
  have plain {c : Cursor} (hk : c.next.kind = .identifier) :
      ¬ c.next.is .delimiter close = true := by simp [Token.is, hk]
  induction hn generalizing c ps with
  | nil =>
    obtain rfl : c = c' := ht.skip_length
    rw [List.append_nil]
    refine yields_step (fun _ => pure ps) ?_ (yields_pure ps c)
    intro fuel
    rw [parameters_succ, if_pos hc]
    rfl
  | @last t hk =>
    rw [← ht.next_eq] at hk hd ⊢
    have hc' : c.skip 1 = c' := ht.skip_length
    refine yields_step (fun _ => pure (ps ++ [c.next.lexeme])) ?_ (yields_pure _ c')
    intro fuel
    rw [parameters_succ, if_neg (plain hk), if_pos hk, if_neg (fresh hd), hc',
      is_false hc (.inr hne), if_neg Bool.false_ne_true]
    rfl
  | @cons t comma u xs hk hcomma _ ih =>
    have ht₁ := ht.skip_one
    rw [← ht.next_eq] at hk hd ⊢
    have hy := ih (show Takes (c.skip 2) u c' by simpa only [Cursor.skip_skip] using ht₁.skip_one)
      (show (ps ++ [c.next.lexeme] ++ xs).Nodup by simpa using hd)
    rw [List.append_assoc] at hy
    refine yields_step (fun fuel => parameters close what fuel (ps ++ [c.next.lexeme]))
      ?_ hy
    intro fuel
    rw [parameters_succ, if_neg (plain hk), if_pos hk, if_neg (fresh hd), ht₁.next_eq,
      if_pos hcomma]

theorem lambda_completes {t colon : Token} {xs : List String} (hk : t.is .keyword "lambda")
    (hn : Names u xs) (hd : xs.Nodup) (hcolon : colon.is .delimiter ":")
    (h : Completes (.expr .test e) v) :
    Completes (.expr .lambdef (.lambda .unknown (xs.map Json.string) e))
      (t :: u ++ colon :: v) := by
  intro c c' ht hf
  obtain ⟨c₁, hu, hv⟩ := ht.skip_one.split
  have hnext : c₁.next.is .delimiter ":" = true := by rw [hv.next_eq, hcolon]
  obtain ⟨e', rfl, hy⟩ := h _ c' hv.skip_one hf
  refine ⟨.lambda c.next.pos (xs.map Json.string) e', rfl, ?_⟩
  refine yields_step (fun fuel => do
      let params ← parameters ":" "a parameter name or ':'" fuel []
      discard (expect .delimiter ":" "':' after lambda parameters")
      let body ← expression fuel loosest
      pure (.lambda c.next.pos (params.map Json.string) body)) ?_
    (yields_bind (names_complete hn (by decide) hu hnext hd) ?_)
  · intro fuel
    rw [operand_succ, ht.next_eq, is_false hk (.inr (by decide)), if_neg Bool.false_ne_true,
      is_false hk (.inl (by simp)), if_neg Bool.false_ne_true, if_pos hk]
    rfl
  · refine yields_congr (fun fuel => expression fuel loosest >>= fun body =>
      pure (.lambda c.next.pos (xs.map Json.string) body)) ?_
      (yields_bind hy (yields_pure _ _))
    intro fuel
    rw [expect_bind, if_pos hnext]
    rfl

theorem call_completes {opening closing : Token} {f : Node} {es : List Node}
    (hf : Completes (.expr .suffixed f) u) (ho : opening.is .delimiter "(")
    (hes : Completes (.items es) v) (hc : closing.is .delimiter ")") :
    Completes (.expr .suffixed (.call .unknown f es)) (u ++ opening :: v ++ [closing]) := by
  intro c c' ht
  rw [List.append_assoc] at ht
  obtain ⟨c₁, hu, hv⟩ := ht.split
  obtain ⟨f', rfl, hy⟩ := hf c c₁ hu
  obtain ⟨es', rfl, hys⟩ := hes ")" "',' or ')' after an argument" closing _ c' hc (by decide)
    hv.skip_one
  refine ⟨.call f'.pos f' es', rfl, fun x c'' hx => hy x c'' ?_⟩
  refine yields_step (fun fuel => sequence fuel ")" "',' or ')' after an argument" [] >>=
    fun args => postfixes fuel (.call f'.pos f' args)) ?_ (yields_bind (hys []) hx)
  intro fuel
  rw [postfixes_succ, hv.next_eq, if_pos ho]

theorem index_completes {opening closing : Token} {a i : Node}
    (ha : Completes (.expr .suffixed a) u) (ho : opening.is .delimiter "[")
    (hi : Completes (.expr .test i) v) (hc : closing.is .delimiter "]") :
    Completes (.expr .suffixed (.index .unknown a i)) (u ++ opening :: v ++ [closing]) := by
  intro c c' ht
  rw [List.append_assoc] at ht
  obtain ⟨c₁, hu, hv⟩ := ht.split
  obtain ⟨c₂, hw, hcl⟩ := hv.skip_one.split
  have hnext : c₂.next.is .delimiter "]" = true := by rw [hcl.next_eq, hc]
  obtain ⟨a', rfl, hy⟩ := ha c c₁ hu
  obtain ⟨i', rfl, hyi⟩ := hi _ c₂ hw (follow_delimiter hnext (by decide))
  refine ⟨.index a'.pos a' i', rfl, fun x c'' hx => hy x c'' ?_⟩
  refine yields_step (fun fuel => expression fuel loosest >>= fun index => do
      discard (expect .delimiter "]" "']' after index")
      postfixes fuel (.index a'.pos a' index)) ?_
    (yields_bind hyi (yields_congr (fun fuel => postfixes fuel (.index a'.pos a' i'))
      ?_ hx))
  · intro fuel
    rw [postfixes_succ, hv.next_eq, is_false ho (.inr (by decide)), if_neg Bool.false_ne_true,
      if_pos ho]
  · intro fuel
    rw [expect_bind, if_pos hnext, ← hcl.skip_length]
    rfl

theorem member_completes {dot name : Token} {a : Node} (ha : Completes (.expr .suffixed a) u)
    (hd : dot.is .delimiter ".") (hn : name.kind = .identifier) :
    Completes (.expr .suffixed (.member .unknown a name.lexeme)) (u ++ [dot, name]) := by
  intro c c' ht
  obtain ⟨c₁, hu, hv⟩ := ht.split
  obtain ⟨a', rfl, hy⟩ := ha c c₁ hu
  refine ⟨.member a'.pos a' name.lexeme, rfl, fun x c'' hx => hy x c'' ?_⟩
  refine yields_step (fun fuel => postfixes fuel (.member a'.pos a' name.lexeme))
    ?_ hx
  intro fuel
  rw [postfixes_succ, hv.next_eq, is_false hd (.inr (by decide)), if_neg Bool.false_ne_true,
    is_false hd (.inr (by decide)), if_neg Bool.false_ne_true, if_pos hd, expectKind_bind,
    hv.skip_one.next_eq, if_pos hn, hv.skip_one.skip_length.symm]
  rfl

theorem leaf_completes {t : Token} (h : Readable t e) : Completes (.expr .atom e) [t] := by
  intro c c' ht
  obtain ⟨e', he, ha⟩ := h
  refine ⟨e', he, yields_step (fun _ => pure e') ?_ (yields_pure e' c')⟩
  intro fuel
  rw [primary_succ, ht.next_eq, ha, ← ht.skip_length]
  rfl

theorem atom_delimiter {t : Token} {lexeme : String} (h : t.is .delimiter lexeme = true) :
    atom? t = none := by
  simp [atom?, (is_iff.mp h).1]

theorem parens_completes {opening closing : Token} (ho : opening.is .delimiter "(")
    (h : Completes (.expr .test e) u) (hc : closing.is .delimiter ")") :
    Completes (.expr .atom e) (opening :: u ++ [closing]) := by
  intro c c' ht
  obtain ⟨c₁, hu, hcl⟩ := ht.skip_one.split
  have hnext : c₁.next.is .delimiter ")" = true := by rw [hcl.next_eq, hc]
  obtain ⟨e', rfl, hy⟩ := h _ c₁ hu (follow_delimiter hnext (by decide))
  refine ⟨e', rfl, ?_⟩
  refine yields_step (fun fuel => expression fuel loosest >>= fun inner => do
      discard (expect .delimiter ")" "')' to close '('")
      pure inner) ?_
    (yields_bind hy (yields_congr (fun _ => pure e') ?_ (yields_pure e' c')))
  · intro fuel
    rw [primary_succ, ht.next_eq, atom_delimiter ho]
    dsimp only
    rw [if_pos ho]
  · intro fuel
    rw [expect_bind, if_pos hnext, ← hcl.skip_length]
    rfl

theorem list_completes {opening closing : Token} {es : List Node} (ho : opening.is .delimiter "[")
    (h : Completes (.items es) u) (hc : closing.is .delimiter "]") :
    Completes (.expr .atom (.listLiteral .unknown es)) (opening :: u ++ [closing]) := by
  intro c c' ht
  obtain ⟨es', rfl, hy⟩ := h "]" "',' or ']' after a list element" closing _ c' hc (by decide)
    ht.skip_one
  refine ⟨.listLiteral c.next.pos es', rfl, ?_⟩
  refine yields_step (fun fuel => sequence fuel "]" "',' or ']' after a list element" [] >>=
    fun items => pure (.listLiteral c.next.pos items)) ?_
    (yields_bind (hy []) (yields_pure _ _))
  intro fuel
  rw [primary_succ, ht.next_eq, atom_delimiter ho]
  dsimp only
  rw [is_false ho (.inr (by decide)), if_neg Bool.false_ne_true, if_pos ho]

theorem map_completes {opening closing : Token} {ps : List (Node × Node)}
    (ho : opening.is .delimiter "\x7b") (h : Completes (.pairs ps) u)
    (hc : closing.is .delimiter "\x7d") :
    Completes (.expr .atom (.mapLiteral .unknown ps)) (opening :: u ++ [closing]) := by
  intro c c' ht
  obtain ⟨ps', rfl, hy⟩ := h closing _ c' hc ht.skip_one
  refine ⟨.mapLiteral c.next.pos ps', rfl, ?_⟩
  refine yields_step (fun fuel => entries fuel [] >>= fun read =>
    pure (.mapLiteral c.next.pos read)) ?_ (yields_bind (hy []) (yields_pure _ _))
  intro fuel
  rw [primary_succ, ht.next_eq, atom_delimiter ho]
  dsimp only
  rw [is_false ho (.inr (by decide)), if_neg Bool.false_ne_true,
    is_false ho (.inr (by decide)), if_neg Bool.false_ne_true, if_pos ho]

theorem noItems_completes : Completes (.items []) [] := by
  intro close what t c c' hc _ ht
  refine ⟨[], rfl, ?_⟩
  intro items
  rw [List.append_nil]
  refine yields_step (fun _ => pure items) ?_ (yields_pure items c')
  intro fuel
  rw [sequence_succ, ht.next_eq, if_pos hc, ← ht.skip_length]
  rfl

theorem sequence_yields {close what : String} {items es : List Node} {c₂ : Cursor}
    (hc : c.next.is .delimiter close = false)
    (he : Yields (fun fuel => expression fuel loosest) c e c₁)
    (hm : Yields (fun fuel => afterItem close what (sequence fuel close what (items ++ [e]))
      (items ++ [e])) c₁ es c₂) :
    Yields (fun fuel => sequence fuel close what items) c es c₂ := by
  refine yields_step (fun fuel => expression fuel loosest >>= fun item =>
    afterItem close what (sequence fuel close what (items ++ [item])) (items ++ [item]))
    ?_ (yields_bind he hm)
  intro fuel
  rw [sequence_succ, hc, if_neg Bool.false_ne_true]

theorem yields_done {close what : String} {more : Nat → Rule α} {a : α} {t : Token}
    (ht : Takes c [t] c') (hc : t.is .delimiter close = true) (hne : close ≠ ",") :
    Yields (fun fuel => afterItem close what (more fuel) a) c a c' := by
  refine yields_congr (fun _ => pure a) ?_ (yields_pure a c')
  intro fuel
  rw [afterItem_apply, ht.next_eq, is_false hc (.inr hne), if_neg Bool.false_ne_true, if_pos hc,
    ← ht.skip_length]
  rfl

theorem yields_more {close what : String} {more : Nat → Rule α} {a b : α}
    (hc : c.next.is .delimiter "," = true) (hm : Yields more (c.skip 1) b c') :
    Yields (fun fuel => afterItem close what (more fuel) a) c b c' :=
  yields_congr more (fun fuel => by rw [afterItem_apply, if_pos hc]) hm

theorem closing_plain {close : String} (h : close ∈ [")", "]"]) :
    close ∉ ["(", "[", "\x7b"] ∧ close ∉ ["(", "[", "."] ∧ close ≠ "," := by
  simp only [List.mem_cons, List.not_mem_nil, or_false] at h
  rcases h with rfl | rfl <;> decide

theorem lastItem_completes (hd : Derives Readable (.expr .test e) u)
    (h : Completes (.expr .test e) u) :
    Completes (.items [e]) u := by
  intro close what t c c' hc hm ht
  obtain ⟨hne, hnf, hcomma⟩ := closing_plain hm
  obtain ⟨c₁, hu, hv⟩ := ht.split
  have hf := follow_delimiter (c := c₁) (by rw [hv.next_eq, hc]) hnf
  obtain ⟨e', rfl, hy⟩ := h c c₁ hu hf
  exact ⟨[e'], rfl, fun items =>
    sequence_yields (not_closing hd hu hne) hy (yields_done hv hc hcomma)⟩

theorem item_completes {comma : Token} {es : List Node} (hd : Derives Readable (.expr .test e) u)
    (h : Completes (.expr .test e) u) (hcomma : comma.is .delimiter ",")
    (hs : Completes (.items es) v) : Completes (.items (e :: es)) (u ++ comma :: v) := by
  intro close what t c c' hc hm ht
  rw [List.append_assoc] at ht
  obtain ⟨c₁, hu, hv⟩ := ht.split
  have hnext : c₁.next.is .delimiter "," = true := by rw [hv.next_eq, hcomma]
  obtain ⟨e', rfl, hy⟩ := h c c₁ hu (follow_delimiter hnext (by decide))
  obtain ⟨es', rfl, hys⟩ := hs close what t _ c' hc hm hv.skip_one
  refine ⟨e' :: es', rfl, ?_⟩
  intro items
  have hmore := hys (items ++ [e'])
  rw [List.append_assoc] at hmore
  exact sequence_yields (not_closing hd hu (closing_plain hm).1) hy (yields_more hnext hmore)

theorem noPairs_completes : Completes (.pairs []) [] := by
  intro t c c' hc ht
  refine ⟨[], rfl, ?_⟩
  intro read
  rw [List.append_nil]
  refine yields_step (fun _ => pure read) ?_ (yields_pure read c')
  intro fuel
  rw [entries_succ, ht.next_eq, if_pos hc, ← ht.skip_length]
  rfl

theorem entries_yields {c₁ c₂ c₃ : Cursor} {k x : Node} {read ps : List (Node × Node)}
    (hd : Derives Readable (.expr .test e) u) (hu : Takes c u c₁)
    (hk : Yields (fun fuel => expression fuel loosest) c k c₁)
    (hcolon : c₁.next.is .delimiter ":" = true)
    (hx : Yields (fun fuel => expression fuel loosest) (c₁.skip 1) x c₂)
    (hm : Yields (fun fuel => afterItem "\x7d" "',' or '\x7d' after a mapping entry"
      (entries fuel (read ++ [(k, x)])) (read ++ [(k, x)])) c₂ ps c₃) :
    Yields (fun fuel => entries fuel read) c ps c₃ := by
  refine yields_step (fun fuel => expression fuel loosest >>= fun key => do
      discard (expect .delimiter ":" "':' after a mapping key")
      let value ← expression fuel loosest
      afterItem "\x7d" "',' or '\x7d' after a mapping entry"
        (entries fuel (read ++ [(key, value)])) (read ++ [(key, value)])) ?_
    (yields_bind hk (yields_congr (fun fuel => expression fuel loosest >>= fun value =>
      afterItem "\x7d" "',' or '\x7d' after a mapping entry"
        (entries fuel (read ++ [(k, value)])) (read ++ [(k, value)])) ?_
      (yields_bind hx hm)))
  · intro fuel
    rw [entries_succ, not_closing hd hu (by decide), if_neg Bool.false_ne_true]
  · intro fuel
    rw [expect_bind, if_pos hcolon]

theorem lastPair_completes {colon : Token} {k : Node} (hd : Derives Readable (.expr .test k) u)
    (hk : Completes (.expr .test k) u) (hcolon : colon.is .delimiter ":")
    (he : Completes (.expr .test e) v) : Completes (.pairs [(k, e)]) (u ++ colon :: v) := by
  intro t c c' hc ht
  rw [List.append_assoc] at ht
  obtain ⟨c₁, hu, hv⟩ := ht.split
  obtain ⟨c₂, hw, hcl⟩ := hv.skip_one.split
  have hnext : c₁.next.is .delimiter ":" = true := by rw [hv.next_eq, hcolon]
  have hclose : c₂.next.is .delimiter "\x7d" = true := by rw [hcl.next_eq, hc]
  obtain ⟨k', rfl, hyk⟩ := hk c c₁ hu (follow_delimiter hnext (by decide))
  obtain ⟨e', rfl, hye⟩ := he _ c₂ hw (follow_delimiter hclose (by decide))
  exact ⟨[(k', e')], rfl, fun read =>
    entries_yields hd hu hyk hnext hye (yields_done hcl hc (by decide))⟩

theorem pair_completes {colon comma : Token} {k : Node} {ps : List (Node × Node)}
    (hd : Derives Readable (.expr .test k) u) (hk : Completes (.expr .test k) u)
    (hcolon : colon.is .delimiter ":") (he : Completes (.expr .test e) v)
    (hcomma : comma.is .delimiter ",") (hs : Completes (.pairs ps) w) :
    Completes (.pairs ((k, e) :: ps)) (u ++ colon :: v ++ comma :: w) := by
  intro t c c' hc ht
  rw [List.append_assoc, List.append_assoc] at ht
  obtain ⟨c₁, hu, hv⟩ := ht.split
  obtain ⟨c₂, hx, hw⟩ := hv.skip_one.split
  have hnext : c₁.next.is .delimiter ":" = true := by rw [hv.next_eq, hcolon]
  have hnext₂ : c₂.next.is .delimiter "," = true := by rw [hw.next_eq, hcomma]
  obtain ⟨k', rfl, hyk⟩ := hk c c₁ hu (follow_delimiter hnext (by decide))
  obtain ⟨e', rfl, hye⟩ := he _ c₂ hx (follow_delimiter hnext₂ (by decide))
  obtain ⟨ps', rfl, hys⟩ := hs t _ c' hc hw.skip_one
  refine ⟨(k', e') :: ps', rfl, ?_⟩
  intro read
  have hmore := hys (read ++ [(k', e')])
  rw [List.append_assoc] at hmore
  exact entries_yields hd hu hyk hnext hye (yields_more hnext₂ hmore)

theorem derivation_completes {p : Phrase} (h : Derives Readable p u) : Completes p u := by
  induction h with
  | unit hs hd ih => exact unit_completes hs hd ih
  | lambda hk hn hd hc _ ih => exact lambda_completes hk hn hd hc ih
  | binary _ ho _ iha ihb => exact binary_completes iha ho ihb
  | negation hk _ ih => exact negation_completes hk ih
  | minus hk _ ih => exact minus_completes hk ih
  | call _ ho _ hc ihf ihs => exact call_completes ihf ho ihs hc
  | index _ ho _ hc iha ihi => exact index_completes iha ho ihi hc
  | member _ hd hn ih => exact member_completes ih hd hn
  | leaf hl => exact leaf_completes hl
  | parens ho _ hc ih => exact parens_completes ho ih hc
  | list ho _ hc ih => exact list_completes ho ih hc
  | map ho _ hc ih => exact map_completes ho ih hc
  | noItems => exact noItems_completes
  | lastItem hd ih => exact lastItem_completes hd ih
  | item hd hc _ ih ihs => exact item_completes hd ih hc ihs
  | noPairs => exact noPairs_completes
  | lastPair hd hc _ ihk ihe => exact lastPair_completes hd ihk hc ihe
  | pair hd hc _ hm _ ihk ihe ihs => exact pair_completes hd ihk hc ihe hm ihs

/-- What is derived as an expression is read as it, up to where nothing goes on with it. -/
theorem expression_complete (h : Derives Readable (.expr .test e) u) (ht : Takes c u c')
    (hf : Follow 0 c') :
    ∃ e', e'.bare = e ∧ Yields (fun fuel => expression fuel loosest) c e' c' :=
  derivation_completes h c c' ht hf

end Offside.Parser
