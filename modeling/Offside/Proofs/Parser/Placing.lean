import Mathlib.Data.Set.Basic
import Offside.Proofs.Parser.StatementFuel
import Offside.Proofs.Tree

/-!
Where nodes stand. A rule gives every node that it builds the place of a token that it has seen or
of another node, so that all nodes of an accepted program stand at tokens of its list; its names are
texts, and its literals stand for values of the language. A rule that fails leaves tokens of that
list, too, for the next statement.
-/

namespace Offside

namespace Node

/-- A node with a place of its own has one of these. -/
def PlacedIn (T : Set Place) (n : Node) : Prop := ∀ p, n.pos? = some p → p ∈ T

/-- The parameters of a function are texts. -/
def TextParams : Node → Prop
  | functionDef _ _ params _ => ∀ x ∈ params, ∃ name : String, x = name
  | _ => True

/-- The data of a node are such as a text can have: names are texts, and a literal has a value. -/
def Textual : Node → Prop
  | literal _ v kind => kind.isText "None" = true ∨ ∀ datum, Value.ofJson v ≠ .foreign datum
  | identifier _ x | forStmt _ x _ _ => ∃ name : String, x = name
  | lambda _ params _ => ∀ x ∈ params, ∃ name : String, x = name
  | functionDef _ x params _ =>
    (∃ name : String, x = name) ∧ ∀ x ∈ params, ∃ name : String, x = name
  | _ => True

/-- What a rule builds. -/
structure Built (T : Set Place) (n : Node) : Prop where
  placed : n.PlacedIn T
  textual : n.Textual

theorem Textual.params {n : Node} (h : n.Textual) : n.TextParams := by
  cases n with
  | functionDef p x params body => exact h.2
  | _ => trivial

/-- A tree that stands at one of these places, with all of its nodes. -/
structure Stands (T : Set Place) (n : Node) : Prop where
  pos : n.pos ∈ T
  all : n.All (Built T)

variable {T : Set Place} {n : Node}

theorem stands_of_parts {p : Place} (hn : n.pos? = some p) (hp : p ∈ T) (htext : n.Textual)
    (hparts : ∀ m ∈ n.parts, m.All (Built T)) : n.Stands T := by
  constructor
  · rw [pos_of_pos? hn]
    exact hp
  · refine all_of_parts ⟨fun q hq => ?_, htext⟩ hparts
    obtain rfl : p = q := Option.some.inj (hn.symm.trans hq)
    exact hp

theorem texts (names : List String) : ∀ x ∈ names.map Json.string, ∃ name : String, x = name :=
  List.forall_mem_map.mpr fun name _ => ⟨name, rfl⟩

theorem hole_all : hole.All (Built T) := all_of_parts ⟨nofun, trivial⟩ nofun

end Node

namespace Parser

variable {α β : Type} {c : Cursor} {T : Set Place} {P : α → Prop} {Q : β → Prop}

/-- The tokens that are left stand at these places, and so does the end. -/
structure Cursor.Within (T : Set Place) (c : Cursor) : Prop where
  stop : (c.stop.pos : Place) ∈ T
  rest : ∀ t ∈ c.rest, (t.pos : Place) ∈ T

namespace Cursor.Within

variable {c' : Cursor}

theorem next (h : c.Within T) : (c.next.pos : Place) ∈ T := by
  unfold Cursor.next
  cases hr : c.rest with
  | nil => exact h.stop
  | cons t rest => exact h.rest t (hr ▸ List.mem_cons_self)

/-- Going on to what is left of the same list. -/
theorem later (h : c.Within T) (hstop : c'.stop = c.stop) (hrest : c'.rest <:+ c.rest) :
    c'.Within T :=
  ⟨hstop ▸ h.stop, fun t ht => h.rest t (hrest.subset ht)⟩

theorem after_skip (h : c.Within T) (n : Nat) : (c.skip n).Within T :=
  h.later rfl (List.drop_suffix n c.rest)

theorem after_recovery (h : c.Within T) (e : ParseError) : (c.recovered e).Within T :=
  h.later rfl (dropStatement_suffix c.rest)

end Cursor.Within

/-- A rule gives what satisfies `P`, and whether it succeeds or fails, goes on in the same list. -/
def Places (T : Set Place) (P : α → Prop) : Outcome α → Prop
  | .ok a c => P a ∧ c.Within T
  | .error _ c => c.Within T

theorem places_bind {x : Rule β} {f : β → Rule α} (hx : Places T Q (x c))
    (hf : ∀ b c, Q b → c.Within T → Places T P (f b c)) : Places T P ((x >>= f) c) := by
  rw [bind_apply]
  cases h : x c with
  | ok b c' =>
    rw [h] at hx
    exact hf b c' hx.1 hx.2
  | error e c' =>
    rw [h] at hx
    exact hx

theorem places_ite {p : Prop} [Decidable p] {r r' : Outcome α} (h : Places T P r)
    (k : Places T P r') : Places T P (if p then r else r') := by
  by_cases hp : p
  · rwa [if_pos hp]
  · rwa [if_neg hp]

theorem places_either {p : Prop} [Decidable p] {x y : Rule α} (h : Places T P (x c))
    (k : Places T P (y c)) : Places T P ((if p then x else y) c) := by
  by_cases hp : p
  · rwa [if_pos hp]
  · rwa [if_neg hp]

theorem places_expect {kind : TokenKind} {lexeme what : String} {f : Unit → Rule α}
    (hc : c.Within T) (hf : ∀ c, c.Within T → Places T P (f () c)) :
    Places T P ((discard (expect kind lexeme what) >>= f) c) := by
  rw [expect_bind]
  exact places_ite (hf _ (hc.after_skip 1)) hc

theorem places_expectKind {kind : TokenKind} {what : String} {f : Token → Rule α}
    (hc : c.Within T) (hf : ∀ t c, c.Within T → Places T P (f t c)) :
    Places T P ((expectKind kind what >>= f) c) := by
  rw [expectKind_bind]
  exact places_ite (hf _ _ (hc.after_skip 1)) hc

theorem places_expectToken {kind : TokenKind} {what : String} {f : Unit → Rule α}
    (hc : c.Within T) (hf : ∀ c, c.Within T → Places T P (f () c)) :
    Places T P ((discard (expectKind kind what) >>= f) c) := by
  rw [expectKind_discard_bind]
  exact places_ite (hf _ (hc.after_skip 1)) hc

theorem places_endOfLine {a : α} (hc : c.Within T) (ha : P a) :
    Places T P ((endOfLine >>= fun _ => pure a) c) := by
  rw [endOfLine_bind]
  exact places_ite ⟨ha, hc.after_skip 1⟩ hc

theorem places_afterItem {close what : String} {more : Rule α} {done : α} (hc : c.Within T)
    (hmore : ∀ c, c.Within T → Places T P (more c)) (hdone : P done) :
    Places T P (afterItem close what more done c) := by
  rw [afterItem_apply]
  exact places_ite (hmore _ (hc.after_skip 1)) (places_ite ⟨hdone, hc.after_skip 1⟩ hc)

/-! ### Expressions -/

theorem parameters_place (close what : String) (fuel : Nat) :
    ∀ ps c, c.Within T → Places T (fun _ => True) (parameters close what fuel ps c) := by
  induction fuel with
  | zero => exact fun _ _ hc => hc
  | succ fuel ih =>
    intro ps c hc
    rw [parameters_succ]
    refine places_ite ⟨trivial, hc⟩ (places_ite (places_ite (hc.after_skip 1) ?_) hc)
    exact places_ite (ih _ _ (hc.after_skip 2)) ⟨trivial, hc.after_skip 1⟩

theorem float_literal_textual (p : Place) (x : Float) :
    (Node.literal p (.float x) "Float").Textual := by
  refine .inr fun datum hv => ?_
  change (if x.isNaN then Value.nan .document else .float x) = .foreign datum at hv
  split_ifs at hv

theorem atom_stands {t : Token} {e : Node} (h : atom? t = some (.ok e)) (ht : (t.pos : Place) ∈ T) :
    e.Stands T := by
  obtain ⟨hpos, htext, hparts⟩ :
      e.pos? = some (t.pos : Place) ∧ e.Textual ∧ e.parts = [] := by
    unfold atom? at h
    split at h
    · split at h <;> cases h
      exact ⟨rfl, .inr nofun, rfl⟩
    · split at h <;> cases h
      exact ⟨rfl, float_literal_textual _ _, rfl⟩
    · cases h
      exact ⟨rfl, .inr nofun, rfl⟩
    · cases h
      exact ⟨rfl, ⟨_, rfl⟩, rfl⟩
    · split_ifs at h <;> cases h
      · exact ⟨rfl, .inr nofun, rfl⟩
      · exact ⟨rfl, .inr nofun, rfl⟩
      · exact ⟨rfl, .inl rfl, rfl⟩
    · cases h
  refine Node.stands_of_parts hpos ht htext ?_
  rw [hparts]
  exact List.forall_mem_nil _

/-- The rules for expressions give what stands at the tokens. -/
structure Placing (T : Set Place) (fuel : Nat) : Prop where
  expression : ∀ level c, c.Within T → Places T (Node.Stands T) (expression fuel level c)
  climb : ∀ level left c, c.Within T → left.Stands T →
    Places T (Node.Stands T) (climb fuel level left c)
  operand : ∀ level c, c.Within T → Places T (Node.Stands T) (operand fuel level c)
  postfixes : ∀ node c, c.Within T → node.Stands T →
    Places T (Node.Stands T) (postfixes fuel node c)
  sequence : ∀ close what items c, c.Within T → (∀ e ∈ items, e.Stands T) →
    Places T (fun es => ∀ e ∈ es, e.Stands T) (sequence fuel close what items c)
  entries : ∀ read c, c.Within T → (∀ e ∈ read, e.1.Stands T ∧ e.2.Stands T) →
    Places T (fun es => ∀ e ∈ es, e.1.Stands T ∧ e.2.Stands T) (entries fuel read c)
  primary : ∀ c, c.Within T → Places T (Node.Stands T) (primary fuel c)

variable {fuel : Nat}

theorem climb_places (ih : Placing T fuel) (level : Nat) (left : Node) (c : Cursor)
    (hc : c.Within T) (hl : left.Stands T) :
    Places T (Node.Stands T) (climb (fuel + 1) level left c) := by
  rw [climb_succ]
  cases binaryOperator? c.next c.second with
  | none => exact ⟨hl, hc⟩
  | some o =>
    refine places_ite ⟨hl, hc⟩ ?_
    refine places_bind (ih.expression _ _ (hc.after_skip _)) fun right c' hr hc' => ?_
    refine ih.climb _ _ _ hc' (Node.stands_of_parts rfl hc.next trivial ?_)
    simp [Node.parts, hl.all, hr.all]

theorem operand_places (ih : Placing T fuel) (level : Nat) (c : Cursor) (hc : c.Within T) :
    Places T (Node.Stands T) (operand (fuel + 1) level c) := by
  have hunary (op : Json) (tighter : Nat) : Places T (Node.Stands T)
      ((expression fuel tighter >>= fun e => pure (.unaryOp c.next.pos op e)) (c.skip 1)) := by
    refine places_bind (ih.expression _ _ (hc.after_skip 1)) fun e c' he hc' => ⟨?_, hc'⟩
    refine Node.stands_of_parts rfl hc.next trivial ?_
    simp [Node.parts, he.all]
  rw [operand_succ]
  refine places_ite (places_ite hc (hunary _ _)) (places_ite (hunary _ _) (places_ite
    (places_ite hc ?_) ?_))
  · refine places_bind (parameters_place _ _ _ _ _ (hc.after_skip 1)) fun params c₁ _ hc₁ => ?_
    refine places_expect hc₁ fun c₂ hc₂ => ?_
    refine places_bind (ih.expression _ _ hc₂) fun body c₃ hb hc₃ => ⟨?_, hc₃⟩
    refine Node.stands_of_parts rfl hc.next (Node.texts params) ?_
    simp [Node.parts, hb.all]
  · exact places_bind (ih.primary _ hc) fun node c' hn hc' => ih.postfixes _ _ hc' hn

/-- A node that goes on from another one stands where that stands. -/
theorem postfixes_places (ih : Placing T fuel) (node : Node) (c : Cursor) (hc : c.Within T)
    (hn : node.Stands T) : Places T (Node.Stands T) (postfixes (fuel + 1) node c) := by
  rw [postfixes_succ]
  refine places_ite ?_ (places_ite ?_ (places_ite ?_ ⟨hn, hc⟩))
  · refine places_bind (ih.sequence _ _ _ _ (hc.after_skip 1) (List.forall_mem_nil _)) ?_
    intro args c' hargs hc'
    refine ih.postfixes _ _ hc' (Node.stands_of_parts rfl hn.pos trivial ?_)
    exact List.forall_mem_cons.mpr ⟨hn.all, fun a ha => (hargs a ha).all⟩
  · refine places_bind (ih.expression _ _ (hc.after_skip 1)) fun index c₁ hi hc₁ => ?_
    refine places_expect hc₁ fun c₂ hc₂ => ?_
    refine ih.postfixes _ _ hc₂ (Node.stands_of_parts rfl hn.pos trivial ?_)
    simp [Node.parts, hn.all, hi.all]
  · refine places_expectKind (hc.after_skip 1) fun name c' hc' => ?_
    refine ih.postfixes _ _ hc' (Node.stands_of_parts rfl hn.pos trivial ?_)
    simp [Node.parts, hn.all]

theorem sequence_places (ih : Placing T fuel) (close what : String) (items : List Node)
    (c : Cursor) (hc : c.Within T) (hi : ∀ e ∈ items, e.Stands T) :
    Places T (fun es => ∀ e ∈ es, e.Stands T) (sequence (fuel + 1) close what items c) := by
  rw [sequence_succ]
  refine places_ite ⟨hi, hc.after_skip 1⟩ ?_
  refine places_bind (ih.expression _ _ hc) fun item c₁ he hc₁ => ?_
  have hmore : ∀ e ∈ items ++ [item], e.Stands T := by
    simp only [List.forall_mem_append, List.forall_mem_singleton]
    exact ⟨hi, he⟩
  exact places_afterItem hc₁ (fun c₂ hc₂ => ih.sequence _ _ _ _ hc₂ hmore) hmore

theorem entries_places (ih : Placing T fuel) (read : List (Node × Node)) (c : Cursor)
    (hc : c.Within T) (hr : ∀ e ∈ read, e.1.Stands T ∧ e.2.Stands T) :
    Places T (fun es => ∀ e ∈ es, e.1.Stands T ∧ e.2.Stands T) (entries (fuel + 1) read c) := by
  rw [entries_succ]
  refine places_ite ⟨hr, hc.after_skip 1⟩ ?_
  refine places_bind (ih.expression _ _ hc) fun key c₁ hk hc₁ => ?_
  refine places_expect hc₁ fun c₂ hc₂ => ?_
  refine places_bind (ih.expression _ _ hc₂) fun value c₃ hv hc₃ => ?_
  have hmore : ∀ e ∈ read ++ [(key, value)], e.1.Stands T ∧ e.2.Stands T := by
    simp only [List.forall_mem_append, List.forall_mem_singleton]
    exact ⟨hr, hk, hv⟩
  exact places_afterItem hc₃ (fun c₄ hc₄ => ih.entries _ _ hc₄ hmore) hmore

theorem primary_places (ih : Placing T fuel) (c : Cursor) (hc : c.Within T) :
    Places T (Node.Stands T) (primary (fuel + 1) c) := by
  rw [primary_succ]
  rcases ha : atom? c.next with _ | f | node
  · refine places_ite ?_ (places_ite ?_ (places_ite ?_ hc))
    · refine places_bind (ih.expression _ _ (hc.after_skip 1)) fun inner c₁ hi hc₁ => ?_
      exact places_expect hc₁ fun c₂ hc₂ => ⟨hi, hc₂⟩
    · refine places_bind (ih.sequence _ _ _ _ (hc.after_skip 1) (List.forall_mem_nil _)) ?_
      intro items c' hi hc'
      exact ⟨Node.stands_of_parts rfl hc.next trivial fun e he => (hi e he).all, hc'⟩
    · refine places_bind (ih.entries _ _ (hc.after_skip 1) (List.forall_mem_nil _)) ?_
      intro read c' hr hc'
      refine ⟨Node.stands_of_parts rfl hc.next trivial fun m hm => ?_, hc'⟩
      obtain ⟨e, he, hm⟩ := List.mem_flatMap.mp hm
      obtain ⟨hk, hv⟩ := hr e he
      have hboth : ∀ m ∈ [e.1, e.2], m.All (Node.Built T) :=
        List.forall_mem_cons.mpr ⟨hk.all, List.forall_mem_singleton.mpr hv.all⟩
      exact hboth m hm
  · exact hc.after_skip 1
  · exact ⟨atom_stands ha hc.next, hc.after_skip 1⟩

theorem rules_place (fuel : Nat) : Placing T fuel := by
  induction fuel with
  | zero => constructor <;> intros <;> assumption
  | succ fuel ih =>
    constructor
    · intro level c hc
      rw [expression_succ]
      exact places_bind (ih.operand _ _ hc) fun left c' hl hc' => ih.climb _ _ _ hc' hl
    · exact climb_places ih
    · exact operand_places ih
    · exact postfixes_places ih
    · exact sequence_places ih
    · exact entries_places ih
    · exact primary_places ih

theorem expression_places (fuel level : Nat) (hc : c.Within T) :
    Places T (Node.Stands T) (expression fuel level c) :=
  (rules_place fuel).expression level c hc

/-! ### Statements -/

theorem simpleStatement_places (fuel : Nat) (hc : c.Within T) :
    Places T (Node.Stands T) (simpleStatement fuel c) := by
  rw [simpleStatement_apply]
  refine places_bind (expression_places _ _ hc) fun expr c₁ he hc₁ => ?_
  rw [simpleTail_apply]
  refine places_ite (places_ite ?_ hc₁) (places_endOfLine hc₁ ?_)
  · refine places_bind (expression_places _ _ (hc₁.after_skip 1)) fun value c₂ hv hc₂ => ?_
    refine places_endOfLine hc₂ ?_
    unfold assignment
    split
    all_goals
      refine Node.stands_of_parts rfl hc.next trivial ?_
      simp [Node.parts, he.all, hv.all]
  · refine Node.stands_of_parts rfl hc.next trivial ?_
    simp [Node.parts, he.all]

theorem returnStatement_places (fuel : Nat) (context : Context) (hc : c.Within T) :
    Places T (Node.Stands T) (returnStatement fuel context c) := by
  rw [returnStatement_apply]
  refine places_ite (places_ite (places_endOfLine (hc.after_skip 1) ?_) ?_) hc
  · refine Node.stands_of_parts rfl hc.next trivial ?_
    simp [Node.parts, Node.hole_all]
  · refine places_bind (expression_places _ _ (hc.after_skip 1)) fun value c' hv hc' => ?_
    refine places_endOfLine hc' (Node.stands_of_parts rfl hc.next trivial ?_)
    simp [Node.parts, hv.all]

theorem loopStatement_places (build : Place → Node) (context : Context) (hc : c.Within T)
    (hb : ∀ p ∈ T, (build p).Stands T) :
    Places T (Node.Stands T) (loopStatement context build c) := by
  rw [loopStatement_apply]
  exact places_ite (places_endOfLine (hc.after_skip 1) (hb _ hc.next)) hc

theorem deleteStatement_places (fuel : Nat) (hc : c.Within T) :
    Places T (Node.Stands T) (deleteStatement fuel c) := by
  rw [deleteStatement_apply]
  refine places_bind (expression_places _ _ (hc.after_skip 1)) fun target c' ht hc' => ?_
  have hdelete : (Node.delete c.next.pos target).Stands T := by
    refine Node.stands_of_parts rfl hc.next trivial ?_
    simp [Node.parts, ht.all]
  unfold deleteTail
  split
  · exact places_endOfLine hc' hdelete
  · exact hc'

/-- The rules for statements give what stands at the tokens. -/
structure PlacingStatements (T : Set Place) (fuel : Nat) : Prop where
  statements : ∀ context topLevel c, c.Within T →
    Places T (fun ss => ∀ s ∈ ss, s.Stands T) (statements fuel context topLevel c)
  statement : ∀ context c, c.Within T → Places T (Node.Stands T) (statement fuel context c)
  block : ∀ context header c, c.Within T →
    Places T (fun ss => ∀ s ∈ ss, s.Stands T) (block fuel context header c)
  elifs : ∀ context branches c, c.Within T →
    (∀ b ∈ branches, ∀ n ∈ b.1 :: b.2, n.Stands T) →
    Places T (fun bs => ∀ b ∈ bs, ∀ n ∈ b.1 :: b.2, n.Stands T) (elifs fuel context branches c)

variable {context : Context} {p : Position}

theorem ifStmt_stands {bs : List (Node × List Node)} {e : Option (List Node)} (hp : (p : Place) ∈ T)
    (hbs : ∀ b ∈ bs, ∀ n ∈ b.1 :: b.2, n.Stands T) (he : ∀ b ∈ e, ∀ n ∈ b, n.Stands T) :
    (Node.ifStmt p bs e).Stands T := by
  refine Node.stands_of_parts rfl hp trivial fun n hn => ?_
  rcases List.mem_append.mp hn with hn | hn
  · obtain ⟨b, hb, hn⟩ := List.mem_flatMap.mp hn
    exact (hbs b hb n hn).all
  · cases e with
    | none => cases hn
    | some b => exact (he b rfl n hn).all

theorem ifTail_places (ih : PlacingStatements T fuel) (hp : (p : Place) ∈ T) (hc : c.Within T) :
    Places T (Node.Stands T) (ifTail fuel context p c) := by
  unfold ifTail
  refine places_bind (expression_places _ _ hc) fun condition c₁ hcond hc₁ => ?_
  refine places_bind (ih.block _ _ _ hc₁) fun body c₂ hb hc₂ => ?_
  have hfirst : ∀ n ∈ condition :: body, n.Stands T := List.forall_mem_cons.mpr ⟨hcond, hb⟩
  refine places_bind (ih.elifs _ _ _ hc₂ (List.forall_mem_singleton.mpr hfirst)) ?_
  intro branches c₃ hbs hc₃
  rw [accept_bind]
  refine places_ite ?_ ⟨ifStmt_stands hp hbs nofun, hc₃⟩
  refine places_bind (ih.block _ _ _ (hc₃.after_skip 1)) fun elseBody c₄ he hc₄ => ?_
  exact ⟨ifStmt_stands hp hbs fun b hb => Option.some.inj hb ▸ he, hc₄⟩

theorem whileTail_places (ih : PlacingStatements T fuel) (hp : (p : Place) ∈ T) (hc : c.Within T) :
    Places T (Node.Stands T) (whileTail fuel context p c) := by
  unfold whileTail
  refine places_bind (expression_places _ _ hc) fun condition c₁ hcond hc₁ => ?_
  refine places_bind (ih.block _ _ _ hc₁) fun body c₂ hb hc₂ => ⟨?_, hc₂⟩
  refine Node.stands_of_parts rfl hp trivial ?_
  exact List.forall_mem_cons.mpr ⟨hcond.all, fun n hn => (hb n hn).all⟩

theorem forTail_places (ih : PlacingStatements T fuel) (hp : (p : Place) ∈ T) (hc : c.Within T) :
    Places T (Node.Stands T) (forTail fuel context p c) := by
  unfold forTail
  refine places_expectKind hc fun name c₁ hc₁ => places_expect hc₁ fun c₂ hc₂ => ?_
  refine places_bind (expression_places _ _ hc₂) fun iterable c₃ hi hc₃ => ?_
  refine places_bind (ih.block _ _ _ hc₃) fun body c₄ hb hc₄ => ⟨?_, hc₄⟩
  refine Node.stands_of_parts rfl hp ⟨_, rfl⟩ ?_
  exact List.forall_mem_cons.mpr ⟨hi.all, fun n hn => (hb n hn).all⟩

theorem defTail_places (ih : PlacingStatements T fuel) (hp : (p : Place) ∈ T) (hc : c.Within T) :
    Places T (Node.Stands T) (defTail fuel p c) := by
  unfold defTail
  refine places_expectKind hc fun name c₁ hc₁ => places_expect hc₁ fun c₂ hc₂ => ?_
  refine places_bind (parameters_place _ _ _ _ _ hc₂) fun params c₃ _ hc₃ => ?_
  refine places_expect hc₃ fun c₄ hc₄ => ?_
  refine places_bind (ih.block _ _ _ hc₄) fun body c₅ hb hc₅ => ⟨?_, hc₅⟩
  exact Node.stands_of_parts rfl hp ⟨⟨_, rfl⟩, Node.texts params⟩ fun n hn => (hb n hn).all

theorem statement_places (ih : PlacingStatements T fuel) (context : Context) (c : Cursor)
    (hc : c.Within T) : Places T (Node.Stands T) (statement (fuel + 1) context c) := by
  have hleaf {n : Node} {p : Place} (hn : n.pos? = some p) (hp : p ∈ T) (htext : n.Textual)
      (hparts : n.parts = []) : n.Stands T := by
    refine Node.stands_of_parts hn hp htext ?_
    rw [hparts]
    exact List.forall_mem_nil _
  have hword {x : Rule Node} (hx : ∀ c, c.Within T → Places T (Node.Stands T) (x c)) :
      Places T (Node.Stands T) ((discard advance >>= fun _ => x) c) := hx _ (hc.after_skip 1)
  rw [statement_succ]
  refine places_ite ?_ (places_ite hc (simpleStatement_places _ hc))
  unfold wordRule
  apply places_either (hword fun _ => ifTail_places ih hc.next)
  apply places_either (hword fun _ => whileTail_places ih hc.next)
  apply places_either (hword fun _ => forTail_places ih hc.next)
  apply places_either (hword fun _ => defTail_places ih hc.next)
  apply places_either (returnStatement_places _ _ hc)
  apply places_either (loopStatement_places .breakStmt _ hc fun p hp => hleaf rfl hp trivial rfl)
  apply places_either (loopStatement_places .continueStmt _ hc fun p hp => hleaf rfl hp trivial rfl)
  apply places_either
  · rw [passStatement_apply]
    exact places_endOfLine (hc.after_skip 1) (hleaf rfl hc.next trivial rfl)
  · exact places_either (deleteStatement_places _ hc) (simpleStatement_places _ hc)

/-- What a failing statement leaves, recovery goes on with. -/
theorem recovering_places {rule : Rule Node} (h : Places T (Node.Stands T) (rule c)) :
    Places T (fun ss => ∀ s ∈ ss, s.Stands T) (recovering rule c) := by
  rw [recovering_apply]
  cases hr : rule c with
  | ok s c' =>
    rw [hr] at h
    exact ⟨fun n hn => Option.some.inj hn ▸ h.1, h.2⟩
  | error e c' =>
    rw [hr] at h
    cases e with
    | problem e => exact ⟨nofun, Cursor.Within.after_recovery h e⟩
    | fault f => exact h
    | starved => exact h

theorem statements_places (ih : PlacingStatements T fuel) (context : Context) (topLevel : Bool)
    (c : Cursor) (hc : c.Within T) :
    Places T (fun ss => ∀ s ∈ ss, s.Stands T) (statements (fuel + 1) context topLevel c) := by
  rw [statements_succ, statementsFrom]
  have hlines : c.afterNewlines.Within T := hc.later rfl (List.dropWhile_suffix _)
  refine places_ite ⟨List.forall_mem_nil _, hlines⟩ (places_ite (places_ite ?_ ?_) ?_)
  · exact ih.statements _ _ _ (hlines.later rfl (List.drop_suffix 1 _))
  · exact ⟨List.forall_mem_nil _, hlines⟩
  · refine places_bind (recovering_places (ih.statement _ _ hlines)) fun s c₁ hs hc₁ => ?_
    cases s with
    | none => exact ih.statements _ _ _ hc₁
    | some s =>
      refine places_bind (ih.statements _ _ _ hc₁) fun rest c₂ hrest hc₂ => ⟨?_, hc₂⟩
      exact List.forall_mem_cons.mpr ⟨hs s rfl, hrest⟩

theorem block_places (ih : PlacingStatements T fuel) (context : Context) (header : String)
    (c : Cursor) (hc : c.Within T) :
    Places T (fun ss => ∀ s ∈ ss, s.Stands T) (block (fuel + 1) context header c) := by
  rw [block_succ]
  refine places_expect hc fun c₁ hc₁ => places_expectToken hc₁ fun c₂ hc₂ => ?_
  refine places_expectToken hc₂ fun c₃ hc₃ => ?_
  refine places_bind (ih.statements _ _ _ hc₃) fun body c₄ hb hc₄ => ?_
  exact places_expectToken hc₄ fun c₅ hc₅ => ⟨hb, hc₅⟩

theorem elifs_places (ih : PlacingStatements T fuel) (context : Context)
    (branches : List (Node × List Node)) (c : Cursor) (hc : c.Within T)
    (h : ∀ b ∈ branches, ∀ n ∈ b.1 :: b.2, n.Stands T) :
    Places T (fun bs => ∀ b ∈ bs, ∀ n ∈ b.1 :: b.2, n.Stands T)
      (elifs (fuel + 1) context branches c) := by
  rw [elifs_succ]
  refine places_ite ?_ ⟨h, hc⟩
  refine places_bind (expression_places _ _ (hc.after_skip 1)) fun condition c₁ hcond hc₁ => ?_
  refine places_bind (ih.block _ _ _ hc₁) fun body c₂ hb hc₂ => ih.elifs _ _ _ hc₂ ?_
  simp only [List.forall_mem_append, List.forall_mem_singleton, List.forall_mem_cons]
  exact ⟨fun b hb => List.forall_mem_cons.mp (h b hb), hcond, hb⟩

theorem rules_place_statements (fuel : Nat) : PlacingStatements T fuel := by
  induction fuel with
  | zero => constructor <;> intros <;> assumption
  | succ fuel ih =>
    exact ⟨statements_places ih, statement_places ih, block_places ih, elifs_places ih⟩

/-- The places of the tokens of a list. -/
def placesOf (ts : List Token) : Set Place := { p | ∃ t ∈ ts, (t.pos : Place) = p }

theorem ofTokens_within {ts : List Token} (h : ts ≠ []) :
    (Cursor.ofTokens ts).Within (placesOf ts) := by
  have hlast : ts.getLast? = some (ts.getLast h) := List.getLast?_eq_some_getLast h
  have hmem : ts.getLast h ∈ ts := List.getLast_mem h
  unfold Cursor.ofTokens
  rw [hlast]
  dsimp only
  split
  · exact ⟨⟨_, hmem, rfl⟩, fun t ht => ⟨t, List.dropLast_subset _ ht, rfl⟩⟩
  · exact ⟨⟨_, hmem, rfl⟩, fun t ht => ⟨t, ht, rfl⟩⟩

/-- Every node of an accepted program stands at a token. -/
theorem program_stands {ts : List Token} {p : Place} {body : List Node}
    (h : parse ts = .ok (.program p body)) : ∀ s ∈ body, s.Stands (placesOf ts) := by
  rcases eq_or_ne ts [] with rfl | hts
  · cases h
    exact List.forall_mem_nil _
  · have hplaces := (rules_place_statements (fuelFor ts)).statements ⟨false, false⟩ true _
      (ofTokens_within hts)
    rw [parse_eq] at h
    unfold verdict at h
    cases hs : statements (fuelFor ts) ⟨false, false⟩ true (Cursor.ofTokens ts) with
    | ok ss c =>
      rw [hs] at h hplaces
      dsimp only at h
      split at h
      · cases h
        exact hplaces.1
      · cases h
    | error e c =>
      rw [hs] at h
      cases e <;> cases h

end Parser

end Offside
