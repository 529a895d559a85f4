import Offside.Proofs.Parser.Level
import Offside.Proofs.Printer.Literal

/-!
Printed expressions. What is printed for an expression is tidy, and whatever tokens have its words
are a derivation of the expression.
-/

namespace Offside.Printer

open Grammar Lexer Offside.Parser

/-- Tokens with the given words, wherever they stand. -/
def Spells (u : List Token) (ws : List Word) : Prop := u.map Token.word = ws

theorem spells_nil {u : List Token} (h : Spells u []) : u = [] := List.map_eq_nil_iff.mp h

theorem spells_cons {u : List Token} {w : Word} {ws : List Word} (h : Spells u (w :: ws)) :
    ∃ t v, u = t :: v ∧ t.word = w ∧ Spells v ws :=
  List.map_eq_cons_iff.mp h

theorem spells_append {u : List Token} {ws vs : List Word} (h : Spells u (ws ++ vs)) :
    ∃ v w, u = v ++ w ∧ Spells v ws ∧ Spells w vs :=
  List.map_eq_append_iff.mp h

theorem word_kind {t : Token} {kind : TokenKind} {lexeme : String}
    (h : t.word = ⟨kind, lexeme⟩) : t.kind = kind := congrArg Word.kind h

theorem word_lexeme {t : Token} {kind : TokenKind} {lexeme : String}
    (h : t.word = ⟨kind, lexeme⟩) : t.lexeme = lexeme := congrArg Word.lexeme h

theorem word_is {t : Token} {kind : TokenKind} {lexeme : String} (h : t.word = ⟨kind, lexeme⟩) :
    t.is kind lexeme = true :=
  is_iff.mpr ⟨word_kind h, word_lexeme h⟩

/-- Pieces that are printed for an expression of a layer. -/
structure Renders (s : Symbol) (ps : List Piece) (e : Node) : Prop where
  tidy : Tidy ps
  starts : ∃ w qs, ps = .word w :: qs
  means : ∀ u, Spells u (wordsOf ps) → Derives Leaf (.expr s e) u

variable {ps qs : List Piece} {a b e : Node}

theorem suffixed_of_atom (h : Renders .atom ps e) : Renders .suffixed ps e :=
  ⟨h.tidy, h.starts, fun u hu => .unit .atom (h.means u hu)⟩

theorem layer_of_suffixed {n : Nat} (h₁ : 1 ≤ n) (h₇ : n ≤ 7) (h : Renders .suffixed ps e) :
    Renders (layer n) ps e :=
  ⟨h.tidy, h.starts, fun u hu =>
    layer_antitone h₁ h₇ (Nat.le_refl 7) (.unit .suffixed (h.means u hu))⟩

theorem test_of_layer {n : Nat} (h₁ : 1 ≤ n) (h₇ : n ≤ 7) (h : Renders (layer n) ps e) :
    Renders .test ps e :=
  ⟨h.tidy, h.starts, fun u hu => goal_of_layer (Nat.le_refl 1) h₁ h₇ (h.means u hu)⟩

theorem test_of_suffixed (h : Renders .suffixed ps e) : Renders .test ps e :=
  test_of_layer (n := 7) (by decide) (by decide) (layer_of_suffixed (by decide) (by decide) h)

theorem renders_leaf {w : Word} (hw : Lexable w) (hk : w.kind ≠ .delimiter)
    (h : ∀ t : Token, t.word = w → Leaf t e) : Renders .atom [.word w] e := by
  refine ⟨tidy_word hw hk, ⟨w, [], rfl⟩, ?_⟩
  intro u hu
  obtain ⟨t, v, rfl, ht, hv⟩ := spells_cons hu
  obtain rfl := spells_nil hv
  exact .leaf (h t ht)

theorem renders_numeral (n : Nat) :
    Renders .atom [literal (.integer n)] (.literal .unknown (.integer n) "Integer") := by
  apply renders_leaf (lexable_numeral n) (by simp)
  intro t ht
  have hl : t.lexeme.toList = Number.natNumeral n := by
    rw [word_lexeme ht, Number.numeral_eq]
    exact String.toList_ofList
  have hleaf := Leaf.integer (word_kind ht) (hl ▸ Number.natNumeral_digits n)
  rw [hl, Number.ofDigits_natNumeral] at hleaf
  exact hleaf

theorem renders_string (s : String) :
    Renders .atom [literal (.string s)] (.literal .unknown (.string s) "String") := by
  apply renders_leaf (lexable_string s) (by simp)
  intro t ht
  have hleaf := Leaf.string (word_kind ht)
  rw [word_lexeme ht, stringValue_quoted] at hleaf
  exact hleaf

theorem renders_boolean (b : Bool) :
    Renders .atom [literal (.boolean b)] (.literal .unknown (.boolean b) "Boolean") := by
  cases b with
  | true =>
    exact renders_leaf (lexable_keyword (by decide)) (by simp) fun t ht => .constTrue (word_is ht)
  | false =>
    exact renders_leaf (lexable_keyword (by decide)) (by simp) fun t ht => .constFalse (word_is ht)

theorem renders_null : Renders .atom [literal .null] (.literal .unknown .null "None") :=
  renders_leaf (lexable_keyword (by decide)) (by simp) fun _ ht => .constNone (word_is ht)

theorem renders_name {x : String} (h : IsName x) :
    Renders .atom [name x] (.identifier .unknown x) := by
  apply renders_leaf (lexable_name h) (by simp)
  intro t ht
  have hleaf := Leaf.name (word_kind ht)
  rw [word_lexeme ht] at hleaf
  exact hleaf

theorem spells_bracketed {opening closing : String} {u : List Token}
    (h : Spells u (wordsOf (bracketed opening closing ps))) :
    ∃ t v t', u = t :: v ++ [t'] ∧ t.is .delimiter opening = true ∧ Spells v (wordsOf ps) ∧
      t'.is .delimiter closing = true := by
  obtain ⟨t, r, rfl, ht, hr⟩ := spells_cons h
  rw [wordsOf_append] at hr
  obtain ⟨v, w, rfl, hv, hw⟩ := spells_append hr
  obtain ⟨t', w, rfl, ht', hw⟩ := spells_cons hw
  obtain rfl := spells_nil hw
  exact ⟨t, v, t', rfl, word_is ht, hv, word_is ht'⟩

theorem renders_parens (h : Renders .test ps e) : Renders .atom (parens ps) e := by
  refine ⟨tidy_parens h.tidy, ⟨_, _, rfl⟩, ?_⟩
  intro u hu
  obtain ⟨t, v, t', rfl, ht, hv, ht'⟩ := spells_bracketed hu
  exact .parens ht (h.means v hv) ht'

def RendersAll (pss : List (List Piece)) (es : List Node) : Prop :=
  List.Forall₂ (Renders .test) pss es

theorem rendersAll_tidy {pss : List (List Piece)} {es : List Node} (h : RendersAll pss es) :
    ∀ ps ∈ pss, Tidy ps := by
  induction h with
  | nil => simp
  | cons h _ ih => exact List.forall_mem_cons.mpr ⟨h.tidy, ih⟩

theorem items_derive {pss : List (List Piece)} {es : List Node} (h : RendersAll pss es)
    {u : List Token} (hu : Spells u (wordsOf (separated pss))) : Derives Leaf (.items es) u := by
  induction h generalizing u with
  | nil =>
    obtain rfl := spells_nil hu
    exact .noItems
  | @cons ps e pss es hp hrest ih =>
    cases hrest with
    | nil => exact .lastItem (hp.means u hu)
    | cons hq hrest =>
      rw [separated, wordsOf_append] at hu
      obtain ⟨v, w, rfl, hv, hw⟩ := spells_append hu
      obtain ⟨t, w, rfl, ht, hw⟩ := spells_cons hw
      exact .item (hp.means v hv) (word_is ht) (ih hw)

theorem renders_list {pss : List (List Piece)} {es : List Node} (h : RendersAll pss es) :
    Renders .atom (bracketed "[" "]" (separated pss)) (.listLiteral .unknown es) := by
  refine ⟨tidy_bracketed (o := '[') (c := ']') (by decide) (tidy_separated (rendersAll_tidy h)),
    ⟨_, _, rfl⟩, ?_⟩
  intro u hu
  obtain ⟨t, v, t', rfl, ht, hv, ht'⟩ := spells_bracketed hu
  exact .list ht (items_derive h hv) ht'

def RendersEntry (ps : List Piece) (e : Node × Node) : Prop :=
  ∃ ks vs, ps = entry ks vs ∧ Renders .test ks e.1 ∧ Renders .test vs e.2

def RendersEntries (pss : List (List Piece)) (es : List (Node × Node)) : Prop :=
  List.Forall₂ RendersEntry pss es

theorem rendersEntries_tidy {pss : List (List Piece)} {es : List (Node × Node)}
    (h : RendersEntries pss es) : ∀ ps ∈ pss, Tidy ps := by
  induction h with
  | nil => simp
  | cons h _ ih =>
    obtain ⟨ks, vs, rfl, hk, hv⟩ := h
    exact List.forall_mem_cons.mpr ⟨tidy_entry hk.tidy hv.tidy, ih⟩

theorem entry_derives {e : Node × Node} (h : RendersEntry ps e) {u : List Token}
    (hu : Spells u (wordsOf ps)) :
    ∃ v t w, u = v ++ t :: w ∧ Derives Leaf (.expr .test e.1) v ∧ t.is .delimiter ":" = true ∧
      Derives Leaf (.expr .test e.2) w := by
  obtain ⟨ks, vs, rfl, hk, hv⟩ := h
  rw [entry, wordsOf_append] at hu
  obtain ⟨v, w, rfl, hv', hw⟩ := spells_append hu
  obtain ⟨t, w, rfl, ht, hw⟩ := spells_cons hw
  exact ⟨v, t, w, rfl, hk.means v hv', word_is ht, hv.means w hw⟩

theorem pairs_derive {pss : List (List Piece)} {es : List (Node × Node)}
    (h : RendersEntries pss es) {u : List Token} (hu : Spells u (wordsOf (separated pss))) :
    Derives Leaf (.pairs es) u := by
  induction h generalizing u with
  | nil =>
    obtain rfl := spells_nil hu
    exact .noPairs
  | @cons ps e pss es hp hrest ih =>
    cases hrest with
    | nil =>
      obtain ⟨v, t, w, rfl, hk, ht, hv⟩ := entry_derives hp hu
      exact .lastPair hk ht hv
    | cons hq hrest =>
      rw [separated, wordsOf_append] at hu
      obtain ⟨x, y, rfl, hx, hy⟩ := spells_append hu
      obtain ⟨comma, y, rfl, hcomma, hy⟩ := spells_cons hy
      obtain ⟨v, t, w, rfl, hk, ht, hv⟩ := entry_derives hp hx
      exact .pair hk ht hv (word_is hcomma) (ih hy)

theorem renders_map {pss : List (List Piece)} {es : List (Node × Node)}
    (h : RendersEntries pss es) :
    Renders .atom (bracketed "\x7b" "\x7d" (separated pss)) (.mapLiteral .unknown es) := by
  refine ⟨tidy_bracketed (o := '{') (c := '}') (by decide)
    (tidy_separated (rendersEntries_tidy h)), ⟨_, _, rfl⟩, ?_⟩
  intro u hu
  obtain ⟨t, v, t', rfl, ht, hv, ht'⟩ := spells_bracketed hu
  exact .map ht (pairs_derive h hv) ht'

/-! ### Operators -/

theorem lexable_operator {op : String} (h : op.toList ∈ operators) : Lexable ⟨.operator, op⟩ := by
  have hop : op = String.ofList op.toList := by rw [String.ofList_toList]
  rw [hop]
  exact .operator h

theorem tidy_operator {op : String} (h : op.toList ∈ operators) : Tidy [operator op] :=
  tidy_word (lexable_operator h) (by simp)

theorem tidy_operation {op : String} (h : op ∈ binaryOperators ∨ op = "not") :
    Tidy (operation op) ∧ ∃ w qs, operation op = .word w :: qs := by
  unfold operation
  split_ifs with hin hword
  · exact ⟨tidy_cons (tidy_word (lexable_keyword (by decide)) (by simp))
      (tidy_blank (tidy_word (lexable_keyword (by decide)) (by simp))) (edged_blank _), _, _, rfl⟩
  · have hall : ∀ op ∈ ["or", "and", "in", "not"], op ∈ keywords := by decide
    exact ⟨tidy_word (lexable_keyword (hall op hword)) (by simp), _, _, rfl⟩
  · have hall : ∀ op ∈ binaryOperators, op ≠ "not in" → op ∉ ["or", "and", "in", "not"] →
        op.toList ∈ operators := by decide
    rcases h with h | rfl
    · exact ⟨tidy_operator (hall op h hin hword), _, _, rfl⟩
    · exact absurd (by decide) hword

theorem operation_derives {op : String} (h : op ∈ binaryOperators) {u : List Token}
    (hu : Spells u (wordsOf (operation op))) :
    ∃ n, 1 ≤ n ∧ n < 7 ∧ Operator (layer n) u op (goal (n + 1)) := by
  have one {kind : TokenKind} (hu : Spells u [⟨kind, op⟩]) :
      ∃ t, u = [t] ∧ t.is kind op = true := by
    obtain ⟨t, v, rfl, ht, hv⟩ := spells_cons hu
    obtain rfl := spells_nil hv
    exact ⟨t, rfl, word_is ht⟩
  unfold operation at hu
  split_ifs at hu with hin hword
  · subst hin
    obtain ⟨t, v, rfl, ht, hv⟩ := spells_cons hu
    obtain ⟨t', v, rfl, ht', hv⟩ := spells_cons hv
    obtain rfl := spells_nil hv
    exact ⟨4, by decide, by decide, .without (word_is ht) (word_is ht')⟩
  · obtain ⟨t, rfl, ht⟩ := one hu
    simp only [List.mem_cons, List.not_mem_nil, or_false] at hword
    rcases hword with rfl | rfl | rfl | rfl
    · exact ⟨1, by decide, by decide, .or ht⟩
    · exact ⟨2, by decide, by decide, .and ht⟩
    · exact ⟨4, by decide, by decide, .within ht⟩
    · exact absurd h (by decide)
  · obtain ⟨t, rfl, ht⟩ := one hu
    obtain ⟨hk, rfl⟩ := is_iff.mp ht
    have hall : ∀ op ∈ binaryOperators, op ≠ "not in" → op ∉ ["or", "and", "in", "not"] →
        op ∈ comparisons ∨ op ∈ ["+", "-"] ∨ op ∈ ["*", "/", "%"] := by decide
    rcases hall _ h hin hword with hm | hm | hm
    · exact ⟨4, by decide, by decide, .compare hk hm⟩
    · exact ⟨5, by decide, by decide, .sum hk hm⟩
    · exact ⟨6, by decide, by decide, .product hk hm⟩

theorem renders_binary {op : String} (h : op ∈ binaryOperators) (ha : Renders .atom ps a)
    (hb : Renders .atom qs b) :
    Renders .test (ps ++ .blank :: (operation op ++ .blank :: qs)) (.binaryOp .unknown op a b) := by
  obtain ⟨w, ws, hstart⟩ := ha.starts
  refine ⟨?_, ⟨w, ws ++ _, by rw [hstart]; rfl⟩, ?_⟩
  · exact tidy_append ha.tidy (tidy_blank (tidy_append (tidy_operation (.inl h)).1
      (tidy_blank hb.tidy) (edged_blank _))) (edged_blank _)
  · intro u hu
    rw [wordsOf_append] at hu
    obtain ⟨x, y, rfl, hx, hy⟩ := spells_append hu
    rw [wordsOf, wordsOf_append] at hy
    obtain ⟨y, z, rfl, hy, hz⟩ := spells_append hy
    obtain ⟨n, h₁, h₇, hop⟩ := operation_derives h hy
    have hleft := layer_of_suffixed h₁ (Nat.le_of_lt h₇) (suffixed_of_atom ha)
    have hright := goal_of_layer (m := n + 1) (by omega) h₇ (Nat.le_refl 7)
      (.unit .suffixed (.unit .atom (hb.means z hz)))
    have hd := goal_of_layer (Nat.le_refl 1) h₁ (Nat.le_of_lt h₇)
      (.binary (hleft.means x hx) hop hright)
    rw [List.append_assoc] at hd
    exact hd

theorem renders_unary {op : String} (h : op ∈ ["-", "not"]) (ha : Renders .atom ps a)
    (he : Edged ps) : Renders .test (operation op ++ ps) (.unaryOp .unknown op a) := by
  have hop : op ∈ binaryOperators ∨ op = "not" := by
    simp only [List.mem_cons, List.not_mem_nil, or_false] at h
    rcases h with rfl | rfl
    · exact .inl (by decide)
    · exact .inr rfl
  obtain ⟨htidy, w, ws, hstart⟩ := tidy_operation hop
  refine ⟨tidy_append htidy ha.tidy he, ⟨w, ws ++ ps, by rw [hstart]; rfl⟩, ?_⟩
  intro u hu
  rw [wordsOf_append] at hu
  obtain ⟨x, y, rfl, hx, hy⟩ := spells_append hu
  have hf := Derives.unit .suffixed (Derives.unit .atom (ha.means y hy))
  simp only [List.mem_cons, List.not_mem_nil, or_false] at h
  rcases h with rfl | rfl
  · obtain ⟨t, v, rfl, ht, hv⟩ := spells_cons hx
    obtain rfl := spells_nil hv
    exact goal_of_layer (m := 1) (n := 7) (by decide) (by decide) (by decide)
      (.minus (word_is ht) hf)
  · obtain ⟨t, v, rfl, ht, hv⟩ := spells_cons hx
    obtain rfl := spells_nil hv
    have hn := layer_antitone (m := 3) (n := 7) (by decide) (by decide) (by decide) hf
    exact goal_of_layer (m := 1) (n := 3) (by decide) (by decide) (by decide)
      (.negation (word_is ht) hn)

theorem renders_call {f : Node} {pss : List (List Piece)} {es : List Node}
    (hf : Renders .atom ps f) (hes : RendersAll pss es) :
    Renders .suffixed (ps ++ bracketed "(" ")" (separated pss)) (.call .unknown f es) := by
  obtain ⟨w, ws, hstart⟩ := hf.starts
  refine ⟨tidy_append hf.tidy (tidy_parens (tidy_separated (rendersAll_tidy hes)))
    (edged_parens _), ⟨w, ws ++ _, by rw [hstart]; rfl⟩, ?_⟩
  intro u hu
  rw [wordsOf_append] at hu
  obtain ⟨x, y, rfl, hx, hy⟩ := spells_append hu
  obtain ⟨t, v, t', rfl, ht, hv, ht'⟩ := spells_bracketed hy
  have hd := Derives.call (.unit .atom (hf.means x hx)) ht (items_derive hes hv) ht'
  rw [List.append_assoc] at hd
  exact hd

theorem renders_index {t i : Node} (ht : Renders .atom ps t) (hi : Renders .test qs i) :
    Renders .suffixed (ps ++ bracketed "[" "]" qs) (.index .unknown t i) := by
  obtain ⟨w, ws, hstart⟩ := ht.starts
  refine ⟨tidy_append ht.tidy (tidy_bracketed (o := '[') (c := ']') (by decide) hi.tidy)
    (fun _ => edge_cons (c := '[') (by decide)), ⟨w, ws ++ _, by rw [hstart]; rfl⟩, ?_⟩
  intro u hu
  rw [wordsOf_append] at hu
  obtain ⟨x, y, rfl, hx, hy⟩ := spells_append hu
  obtain ⟨o, v, c, rfl, ho, hv, hc⟩ := spells_bracketed hy
  have hd := Derives.index (.unit .atom (ht.means x hx)) ho (hi.means v hv) hc
  rw [List.append_assoc] at hd
  exact hd

/-- A member of what stands in parentheses, which a point may follow at once. -/
theorem renders_member {t : Node} {x : String} (ht : Renders .test ps t) (hx : IsName x) :
    Renders .suffixed (parens ps ++ [delimiter ".", name x]) (.member .unknown t x) := by
  have hname : Tidy [name (.string x)] := tidy_word (lexable_name hx) (by simp)
  have hdot := tidy_dot hname
  refine ⟨⟨fun rest hr => spaced_append.mpr ⟨?_, hdot.spaced rest hr⟩, ?_⟩,
    ⟨_, _, rfl⟩, ?_⟩
  · exact bracketed_spaced (o := '(') (c := ')') (by decide) ht.tidy _
  · intro depth
    rw [wordsOf_append, List.foldl_append, (tidy_parens ht.tidy).balanced, hdot.balanced]
  · intro u hu
    rw [wordsOf_append] at hu
    obtain ⟨v, w, rfl, hv, hw⟩ := spells_append hu
    obtain ⟨d, w, rfl, hd, hw⟩ := spells_cons hw
    obtain ⟨n, w, rfl, hn, hw⟩ := spells_cons hw
    obtain rfl := spells_nil hw
    have hm := Derives.member (.unit .atom ((renders_parens ht).means v hv)) (word_is hd)
      (word_kind hn)
    rw [word_lexeme hn] at hm
    exact hm

theorem names_derive {xs : List String} (h : ∀ x ∈ xs, IsName x) {u : List Token}
    (hu : Spells u (wordsOf (separated (xs.map fun x => [name (.string x)])))) : Names u xs := by
  induction xs generalizing u with
  | nil =>
    obtain rfl := spells_nil hu
    exact .nil
  | cons x xs ih =>
    have hrest := fun hu => ih (u := hu) fun y hy => h y (List.mem_cons_of_mem x hy)
    cases xs with
    | nil =>
      obtain ⟨t, v, rfl, ht, hv⟩ := spells_cons hu
      obtain rfl := spells_nil hv
      have hn := Names.last (word_kind ht)
      rw [word_lexeme ht] at hn
      exact hn
    | cons y ys =>
      obtain ⟨t, v, rfl, ht, hv⟩ := spells_cons hu
      obtain ⟨comma, v, rfl, hc, hv⟩ := spells_cons hv
      have hn := Names.cons (word_kind ht) (word_is hc) (hrest v hv)
      rw [word_lexeme ht] at hn
      exact hn

theorem tidy_names {xs : List String} (h : ∀ x ∈ xs, IsName x) :
    Tidy (separated (xs.map fun x => [name (.string x)])) := by
  apply tidy_separated
  intro ps hps
  obtain ⟨x, hx, rfl⟩ := List.mem_map.mp hps
  exact tidy_word (lexable_name (h x hx)) (by simp)

theorem renders_lambda {xs : List String} (h : ∀ x ∈ xs, IsName x) (hd : xs.Nodup)
    (hb : Renders .test ps b) :
    Renders .test (keyword "lambda" :: .blank ::
      (separated (xs.map fun x => [name (.string x)]) ++ delimiter ":" :: .blank :: ps))
      (.lambda .unknown (xs.map Json.string) b) := by
  refine ⟨?_, ⟨_, _, rfl⟩, ?_⟩
  · exact tidy_cons (tidy_word (lexable_keyword (by decide)) (by simp))
      (tidy_blank (tidy_append (tidy_names h) (tidy_colon (tidy_blank hb.tidy)) (edged_colon _)))
      (edged_blank _)
  · intro u hu
    obtain ⟨t, v, rfl, ht, hv⟩ := spells_cons hu
    rw [wordsOf, wordsOf_append] at hv
    obtain ⟨x, y, rfl, hx, hy⟩ := spells_append hv
    obtain ⟨colon, z, rfl, hc, hz⟩ := spells_cons hy
    exact .unit .lambdef (.lambda (word_is ht) (names_derive h hx) hd (word_is hc) (hb.means z hz))

theorem rendersAll_pieces {es : List Node} (h : ∀ e ∈ es, Renders .test (pieces e) e.bare) :
    RendersAll (piecesAll es) (Node.bareList es) := by
  induction es with
  | nil => exact .nil
  | cons e es ih =>
    exact .cons (h e List.mem_cons_self) (ih fun a ha => h a (List.mem_cons_of_mem e ha))

theorem rendersEntries_pieces {es : List (Node × Node)}
    (hk : ∀ e ∈ es, Renders .test (pieces e.1) e.1.bare)
    (hv : ∀ e ∈ es, Renders .test (pieces e.2) e.2.bare) :
    RendersEntries (piecesPairs es) (Node.barePairs es) := by
  induction es with
  | nil => exact .nil
  | cons e es ih =>
    refine .cons ⟨_, _, rfl, hk e List.mem_cons_self, hv e List.mem_cons_self⟩ (ih ?_ ?_)
    · intro a ha
      exact hk a (List.mem_cons_of_mem e ha)
    · intro a ha
      exact hv a (List.mem_cons_of_mem e ha)

theorem expression_renders (h : e.Expression) : Renders .test (pieces e) e.bare := by
  induction h with
  | integer => exact test_of_suffixed (suffixed_of_atom (renders_numeral _))
  | string => exact test_of_suffixed (suffixed_of_atom (renders_string _))
  | boolean => exact test_of_suffixed (suffixed_of_atom (renders_boolean _))
  | null => exact test_of_suffixed (suffixed_of_atom renders_null)
  | identifier hx => exact test_of_suffixed (suffixed_of_atom (renders_name hx))
  | unaryOp hop _ ih => exact renders_unary hop (renders_parens ih) (edged_parens _)
  | binaryOp hop _ _ iha ihb =>
    exact renders_binary hop (renders_parens iha) (renders_parens ihb)
  | call _ _ ihf ihs =>
    exact test_of_suffixed (renders_call (renders_parens ihf) (rendersAll_pieces ihs))
  | index _ _ iht ihi => exact test_of_suffixed (renders_index (renders_parens iht) ihi)
  | member _ hx iht => exact test_of_suffixed (renders_member iht hx)
  | listLiteral _ ih =>
    exact test_of_suffixed (suffixed_of_atom (renders_list (rendersAll_pieces ih)))
  | mapLiteral _ _ ihk ihv =>
    exact test_of_suffixed (suffixed_of_atom (renders_map (rendersEntries_pieces ihk ihv)))
  | @lambda p xs b hx hd _ ih =>
    have h := renders_lambda hx hd ih
    rw [pieces, List.map_map]
    exact h

end Offside.Printer
