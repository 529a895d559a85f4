import Offside.Proofs.Parser.Counted
import Offside.Proofs.Parser.Fuel
import Offside.Proofs.Parser.Soundness
import Offside.Proofs.Parser.StatementRule
import Offside.Proofs.Tree

/-!
What the rules build. Whatever the tokens are, a rule that succeeds gives a tree the evaluator has
rules for: an expression can be evaluated, and a statement can be executed in the context it was
read in. A statement that fails is dropped whole, so recovery adds none.
-/

namespace Offside.Parser

variable {α β : Type} {c : Cursor} {P : α → Prop} {Q : β → Prop}

/-- A rule gives nothing but what satisfies `P`. -/
def Gives (P : α → Prop) (r : Outcome α) : Prop := ∀ a c, r = .ok a c → P a

theorem gives_ok {a : α} (h : P a) : Gives P (.ok a c) := by
  rintro _ _ ⟨⟩
  exact h

theorem gives_error {e : Halt} : Gives P (.error e c) := nofun

theorem gives_bind {x : Rule β} {f : β → Rule α} (hx : Gives Q (x c))
    (hf : ∀ b c, Q b → Gives P (f b c)) : Gives P ((x >>= f) c) := by
  intro a c' h
  obtain ⟨b, c₁, hb, ha⟩ := bind_ok_iff.mp h
  exact hf b c₁ (hx b c₁ hb) a c' ha

theorem gives_then {x : Rule β} {f : β → Rule α} (hf : ∀ b c, Gives P (f b c)) :
    Gives P ((x >>= f) c) :=
  gives_bind (Q := fun _ => True) (fun _ _ _ => trivial) fun b c _ => hf b c

theorem gives_ite {p : Prop} [Decidable p] {r r' : Outcome α} (h : p → Gives P r)
    (k : ¬ p → Gives P r') : Gives P (if p then r else r') := by
  by_cases hp : p
  · rw [if_pos hp]
    exact h hp
  · rw [if_neg hp]
    exact k hp

theorem gives_either {p : Prop} [Decidable p] {x y : Rule α} (h : Gives P (x c))
    (k : Gives P (y c)) : Gives P ((if p then x else y) c) := by
  split
  · exact h
  · exact k

/-! ### Expressions -/

theorem gives_parameters (close what : String) (fuel : Nat) :
    ∀ ps c, ps.Nodup → Gives List.Nodup (parameters close what fuel ps c) := by
  induction fuel with
  | zero => exact fun _ _ _ => gives_error
  | succ fuel ih =>
    intro ps c hps
    rw [parameters_succ]
    refine gives_ite (fun _ => gives_ok hps) fun _ => gives_ite (fun _ => ?_) fun _ => gives_error
    refine gives_ite (fun _ => gives_error) fun hx => ?_
    have hd := nodup_snoc hps hx
    exact gives_ite (fun _ => ih _ _ hd) fun _ => gives_ok hd

theorem params_nodup {xs : List String} (h : xs.Nodup) : (xs.map Json.string).Nodup :=
  h.map fun _ _ => Json.string.inj

theorem binaryOperator_mem {t second : Token} {op : String} {level width : Nat}
    (h : binaryOperator? t second = some (op, level, width)) : op ∈ binaryOperators := by
  have hknown {op : String} (hp : (precedence? op).isSome = true) : op ∈ binaryOperators := by
    unfold precedence? at hp
    unfold binaryOperators comparisons
    split_ifs at hp <;> simp_all
    all_goals tauto
  have hmap {op op' : String} {level width width' : Nat}
      (h : (precedence? op').map (fun level => (op', level, width')) = some (op, level, width)) :
      op ∈ binaryOperators := by
    obtain ⟨l, hl, he⟩ := Option.map_eq_some_iff.mp h
    obtain ⟨rfl, -⟩ := Prod.mk.inj he
    exact hknown (by rw [hl]; rfl)
  unfold binaryOperator? at h
  split_ifs at h
  · exact hmap h
  · exact hmap h
  · exact hmap h

theorem atom_evaluable {t : Token} {e : Node} (h : atom? t = some (.ok e)) : e.Evaluable := by
  unfold atom? at h
  split at h
  · split at h <;> cases h
    exact .literal
  · split at h <;> cases h
    exact .literal
  · cases h
    exact .literal
  · cases h
    exact .identifier
  · split_ifs at h <;> cases h <;> exact .literal
  · cases h

/-- The rules for expressions give what can be evaluated. -/
structure Evaluables (fuel : Nat) : Prop where
  expression : ∀ level c, Gives Node.Evaluable (expression fuel level c)
  climb : ∀ level left c, left.Evaluable → Gives Node.Evaluable (climb fuel level left c)
  operand : ∀ level c, Gives Node.Evaluable (operand fuel level c)
  postfixes : ∀ node c, node.Evaluable → Gives Node.Evaluable (postfixes fuel node c)
  sequence : ∀ close what items c, (∀ e ∈ items, e.Evaluable) →
    Gives (fun es => ∀ e ∈ es, e.Evaluable) (sequence fuel close what items c)
  entries : ∀ read c, (∀ e ∈ read, e.1.Evaluable ∧ e.2.Evaluable) →
    Gives (fun es => ∀ e ∈ es, e.1.Evaluable ∧ e.2.Evaluable) (entries fuel read c)
  primary : ∀ c, Gives Node.Evaluable (primary fuel c)

theorem gives_expect {kind : TokenKind} {lexeme what : String} {f : Unit → Rule α}
    (hf : ∀ c, Gives P (f () c)) : Gives P ((discard (expect kind lexeme what) >>= f) c) :=
  gives_then fun _ => hf

theorem gives_afterItem {close what : String} {more : Rule α} {done : α}
    (hmore : ∀ c, Gives P (more c)) (hdone : P done) :
    Gives P (afterItem close what more done c) := by
  rw [afterItem_apply]
  exact gives_ite (fun _ => hmore _) fun _ => gives_ite (fun _ => gives_ok hdone)
    fun _ => gives_error

theorem mem_snoc {T : α → Prop} {items : List α} {a : α} (h : ∀ e ∈ items, T e) (ha : T a) :
    ∀ e ∈ items ++ [a], T e := by
  intro e he
  rcases List.mem_append.mp he with he | he
  · exact h e he
  · exact List.mem_singleton.mp he ▸ ha

variable {fuel : Nat}

theorem climb_evaluable (ih : Evaluables fuel) (level : Nat) (left : Node) (c : Cursor)
    (hl : left.Evaluable) : Gives Node.Evaluable (climb (fuel + 1) level left c) := by
  rw [climb_succ]
  cases ho : binaryOperator? c.next c.second with
  | none => exact gives_ok hl
  | some o =>
    refine gives_ite (fun _ => gives_ok hl) fun _ => ?_
    refine gives_bind (ih.expression _ _) fun right c hr => ih.climb _ _ _ ?_
    exact .binaryOp (binaryOperator_mem ho) hl hr

theorem operand_evaluable (ih : Evaluables fuel) (level : Nat) (c : Cursor) :
    Gives Node.Evaluable (operand (fuel + 1) level c) := by
  rw [operand_succ]
  refine gives_ite (fun _ => gives_ite (fun _ => gives_error) fun _ => ?_) fun _ =>
    gives_ite (fun _ => ?_) fun _ => gives_ite (fun _ => gives_ite (fun _ => gives_error)
      fun _ => ?_) fun _ => ?_
  · exact gives_bind (ih.expression _ _) fun e c he => gives_ok (.unaryOp (by simp) he)
  · exact gives_bind (ih.expression _ _) fun e c he => gives_ok (.unaryOp (by simp) he)
  · refine gives_bind (gives_parameters _ _ _ _ _ List.nodup_nil) fun params c hps => ?_
    refine gives_expect fun c => gives_bind (ih.expression _ _) fun body c hb => ?_
    exact gives_ok (.lambda (params_nodup hps) hb)
  · exact gives_bind (ih.primary _) fun node c hn => ih.postfixes _ _ hn

theorem postfixes_evaluable (ih : Evaluables fuel) (node : Node) (c : Cursor)
    (hn : node.Evaluable) : Gives Node.Evaluable (postfixes (fuel + 1) node c) := by
  rw [postfixes_succ]
  refine gives_ite (fun _ => ?_) fun _ => gives_ite (fun _ => ?_) fun _ =>
    gives_ite (fun _ => ?_) fun _ => gives_ok hn
  · refine gives_bind (ih.sequence _ _ _ _ (by simp)) fun args c has => ?_
    exact ih.postfixes _ _ (.call hn has)
  · refine gives_bind (ih.expression _ _) fun index c hi => gives_expect fun c => ?_
    exact ih.postfixes _ _ (.index hn hi)
  · exact gives_then fun name c => ih.postfixes _ _ (.member hn)

theorem sequence_evaluable (ih : Evaluables fuel) (close what : String) (items : List Node)
    (c : Cursor) (hi : ∀ e ∈ items, e.Evaluable) :
    Gives (fun es => ∀ e ∈ es, e.Evaluable) (sequence (fuel + 1) close what items c) := by
  rw [sequence_succ]
  refine gives_ite (fun _ => gives_ok hi) fun _ => ?_
  refine gives_bind (ih.expression _ _) fun item c he => ?_
  have hmore := mem_snoc hi he
  exact gives_afterItem (fun c => ih.sequence _ _ _ _ hmore) hmore

theorem entries_evaluable (ih : Evaluables fuel) (read : List (Node × Node)) (c : Cursor)
    (hr : ∀ e ∈ read, e.1.Evaluable ∧ e.2.Evaluable) :
    Gives (fun es => ∀ e ∈ es, e.1.Evaluable ∧ e.2.Evaluable) (entries (fuel + 1) read c) := by
  rw [entries_succ]
  refine gives_ite (fun _ => gives_ok hr) fun _ => ?_
  refine gives_bind (ih.expression _ _) fun key c hk => gives_expect fun c => ?_
  refine gives_bind (ih.expression _ _) fun value c hv => ?_
  have hmore := mem_snoc (T := fun e : Node × Node => e.1.Evaluable ∧ e.2.Evaluable)
    (a := (key, value)) hr ⟨hk, hv⟩
  exact gives_afterItem (fun c => ih.entries _ _ hmore) hmore

theorem primary_evaluable (ih : Evaluables fuel) (c : Cursor) :
    Gives Node.Evaluable (primary (fuel + 1) c) := by
  rw [primary_succ]
  rcases ha : atom? c.next with _ | f | node
  · refine gives_ite (fun _ => ?_) fun _ => gives_ite (fun _ => ?_) fun _ =>
      gives_ite (fun _ => ?_) fun _ => gives_error
    · exact gives_bind (ih.expression _ _) fun inner c hi => gives_expect fun c => gives_ok hi
    · exact gives_bind (ih.sequence _ _ _ _ (by simp)) fun items c hi =>
        gives_ok (.listLiteral hi)
    · exact gives_bind (ih.entries _ _ (by simp)) fun read c hr =>
        gives_ok (.mapLiteral (fun e he => (hr e he).1) fun e he => (hr e he).2)
  · exact gives_error
  · exact gives_ok (atom_evaluable ha)

theorem rules_evaluable (fuel : Nat) : Evaluables fuel := by
  induction fuel with
  | zero => constructor <;> intros <;> exact gives_error
  | succ fuel ih =>
    constructor
    · intro level c
      rw [expression_succ]
      exact gives_bind (ih.operand _ _) fun left c hl => ih.climb _ _ _ hl
    · exact climb_evaluable ih
    · exact operand_evaluable ih
    · exact postfixes_evaluable ih
    · exact sequence_evaluable ih
    · exact entries_evaluable ih
    · exact primary_evaluable ih

/-! ### Statements -/

theorem expression_evaluable (fuel level : Nat) (c : Cursor) :
    Gives Node.Evaluable (expression fuel level c) :=
  (rules_evaluable fuel).expression level c

theorem augmented_mem {mark op : String} (h : augmented? mark = some op) :
    op ∈ Node.augmentedOperators := by
  unfold augmented? at h
  split_ifs at h <;> cases h <;> decide

variable {context : Context}

theorem simpleStatement_executable (fuel : Nat) (context : Context) (c : Cursor) :
    Gives (Node.Executable true context) (simpleStatement fuel c) := by
  rw [simpleStatement_apply]
  refine gives_bind (expression_evaluable _ _ _) fun expr c he => ?_
  rw [simpleTail_apply]
  refine gives_ite (fun _ => gives_ite (fun ha => ?_) fun _ => gives_error) fun _ => ?_
  · refine gives_bind (expression_evaluable _ _ _) fun value c hv => gives_then fun _ c => ?_
    apply gives_ok
    unfold assignment
    split
    · exact .augAssign he ha (augmented_mem ‹_›) hv
    · exact .assign he ha hv
  · exact gives_then fun _ c => gives_ok (.exprStmt he)

theorem returnStatement_executable (fuel : Nat) (context : Context) (c : Cursor) :
    Gives (Node.Executable true context) (returnStatement fuel context c) := by
  rw [returnStatement_apply]
  refine gives_ite (fun hf => gives_ite (fun _ => ?_) fun _ => ?_) fun _ => gives_error
  · exact gives_then fun _ c => gives_ok (.returnNone hf)
  · refine gives_bind (expression_evaluable _ _ _) fun value c hv => ?_
    exact gives_then fun _ c => gives_ok (.returnStmt hf hv)

theorem loopStatement_executable {build : Place → Node} (context : Context) (c : Cursor)
    (hb : ∀ p, context.inLoop = true → Node.Executable true context (build p)) :
    Gives (Node.Executable true context) (loopStatement context build c) := by
  rw [loopStatement_apply]
  refine gives_ite (fun hl => ?_) fun _ => gives_error
  exact gives_then fun _ c => gives_ok (hb _ hl)

theorem passStatement_executable (context : Context) (c : Cursor) :
    Gives (Node.Executable true context) (passStatement c) := by
  rw [passStatement_apply]
  exact gives_then fun _ c => gives_ok .passStmt

theorem deleteStatement_executable (fuel : Nat) (context : Context) (c : Cursor) :
    Gives (Node.Executable true context) (deleteStatement fuel c) := by
  rw [deleteStatement_apply]
  refine gives_bind (expression_evaluable _ _ _) fun target c ht => ?_
  cases target
  case index p t i =>
    obtain ⟨ht, hi⟩ : t.Evaluable ∧ i.Evaluable := by
      cases ht
      constructor <;> assumption
    exact gives_then fun _ c => gives_ok (.delete ht hi)
  all_goals exact gives_error

/-- The rules for statements give what can be executed where it was read. -/
structure Executables (fuel : Nat) : Prop where
  statements : ∀ context topLevel c,
    Gives (fun ss => ∀ s ∈ ss, s.Executable true context) (statements fuel context topLevel c)
  statement : ∀ context c, Gives (Node.Executable true context) (statement fuel context c)
  block : ∀ context header c,
    Gives (fun ss => ∀ s ∈ ss, s.Executable true context) (block fuel context header c)
  elifs : ∀ context branches c, branches ≠ [] →
    (∀ b ∈ branches, b.1.Evaluable ∧ ∀ s ∈ b.2, Node.Executable true context s) →
    Gives (fun bs => bs ≠ [] ∧ ∀ b ∈ bs, b.1.Evaluable ∧ ∀ s ∈ b.2, Node.Executable true context s)
      (elifs fuel context branches c)

theorem ifTail_executable (ih : Executables fuel) (context : Context) (p : Position)
    (c : Cursor) : Gives (Node.Executable true context) (ifTail fuel context p c) := by
  unfold ifTail
  refine gives_bind (expression_evaluable _ _ _) fun condition c hc => ?_
  refine gives_bind (ih.block _ _ _) fun body c hb => ?_
  refine gives_bind (ih.elifs _ _ _ (by simp) (by simpa using ⟨hc, hb⟩)) ?_
  rintro branches c ⟨hne, hbs⟩
  have hcs := fun b hb => (hbs b hb).1
  have hss := fun b hb => (hbs b hb).2
  refine gives_then fun _ c => gives_either ?_ ?_
  · exact gives_bind (ih.block _ _ _) fun elseBody c he =>
      gives_ok (.ifStmt hne hcs hss (by simpa using he))
  · exact gives_ok (.ifStmt hne hcs hss (by simp))

theorem whileTail_executable (ih : Executables fuel) (context : Context) (p : Position)
    (c : Cursor) : Gives (Node.Executable true context) (whileTail fuel context p c) := by
  unfold whileTail
  refine gives_bind (expression_evaluable _ _ _) fun condition c hc => ?_
  exact gives_bind (ih.block _ _ _) fun body c hb => gives_ok (.whileStmt rfl hc hb)

theorem forTail_executable (ih : Executables fuel) (context : Context) (p : Position)
    (c : Cursor) : Gives (Node.Executable true context) (forTail fuel context p c) := by
  unfold forTail
  refine gives_then fun name c => gives_expect fun c => ?_
  refine gives_bind (expression_evaluable _ _ _) fun iterable c hi => ?_
  exact gives_bind (ih.block _ _ _) fun body c hb => gives_ok (.forStmt hi hb)

theorem defTail_executable (ih : Executables fuel) (context : Context) (p : Position)
    (c : Cursor) : Gives (Node.Executable true context) (defTail fuel p c) := by
  unfold defTail
  refine gives_then fun name c => gives_expect fun c => ?_
  refine gives_bind (gives_parameters _ _ _ _ _ List.nodup_nil) fun params c hps => ?_
  refine gives_expect fun c => gives_bind (ih.block _ _ _) fun body c hb => ?_
  exact gives_ok (.functionDef (params_nodup hps) hb)

theorem statement_executable (ih : Executables fuel) (context : Context) (c : Cursor) :
    Gives (Node.Executable true context) (statement (fuel + 1) context c) := by
  rw [statement_succ]
  refine gives_ite (fun _ => ?_) fun _ => gives_ite (fun _ => gives_error)
    fun _ => simpleStatement_executable _ _ _
  unfold wordRule
  refine gives_either (gives_then fun _ c => ifTail_executable ih _ _ _) ?_
  refine gives_either (gives_then fun _ c => whileTail_executable ih _ _ _) ?_
  refine gives_either (gives_then fun _ c => forTail_executable ih _ _ _) ?_
  refine gives_either (gives_then fun _ c => defTail_executable ih _ _ _) ?_
  apply gives_either (returnStatement_executable _ _ _)
  apply gives_either (loopStatement_executable _ _ fun _ h => .breakStmt h)
  apply gives_either (loopStatement_executable _ _ fun _ h => .continueStmt h)
  apply gives_either (passStatement_executable _ _)
  exact gives_either (deleteStatement_executable _ _ _) (simpleStatement_executable _ _ _)

theorem recovering_executable {rule : Rule Node} (h : Gives (Node.Executable true context) (rule c)) :
    Gives (fun ss => ∀ s ∈ ss, s.Executable true context) (recovering rule c) := by
  rw [recovering_apply]
  split
  · next s c' hs =>
    apply gives_ok
    intro n hn
    exact Option.mem_some.mp hn ▸ h s c' hs
  · exact gives_ok nofun
  · exact gives_error
  · exact gives_error

theorem statements_executable (ih : Executables fuel) (context : Context) (topLevel : Bool)
    (c : Cursor) : Gives (fun ss => ∀ s ∈ ss, s.Executable true context)
      (statements (fuel + 1) context topLevel c) := by
  rw [statements_succ, statementsFrom]
  refine gives_ite (fun _ => gives_ok (List.forall_mem_nil _)) fun _ => gives_ite (fun _ => ?_) fun _ => ?_
  · exact gives_ite (fun _ => ih.statements _ _ _) fun _ => gives_ok (List.forall_mem_nil _)
  · refine gives_bind (recovering_executable (ih.statement _ _)) fun s c hs => ?_
    cases s with
    | none => exact ih.statements _ _ _
    | some s =>
      refine gives_bind (ih.statements _ _ _) fun rest c hrest => gives_ok ?_
      exact List.forall_mem_cons.mpr ⟨hs s rfl, hrest⟩

theorem block_executable (ih : Executables fuel) (context : Context) (header : String)
    (c : Cursor) : Gives (fun ss => ∀ s ∈ ss, s.Executable true context)
      (block (fuel + 1) context header c) := by
  rw [block_succ]
  refine gives_then fun _ c => gives_then fun _ c => gives_then fun _ c => ?_
  exact gives_bind (ih.statements _ _ _) fun body c hb => gives_then fun _ c => gives_ok hb

theorem elifs_executable (ih : Executables fuel) (context : Context)
    (branches : List (Node × List Node)) (c : Cursor) (hne : branches ≠ [])
    (h : ∀ b ∈ branches, b.1.Evaluable ∧ ∀ s ∈ b.2, Node.Executable true context s) :
    Gives (fun bs => bs ≠ [] ∧ ∀ b ∈ bs, b.1.Evaluable ∧ ∀ s ∈ b.2, Node.Executable true context s)
      (elifs (fuel + 1) context branches c) := by
  rw [elifs_succ]
  refine gives_ite (fun _ => ?_) fun _ => gives_ok ⟨hne, h⟩
  refine gives_bind (expression_evaluable _ _ _) fun condition c hc => ?_
  refine gives_bind (ih.block _ _ _) fun body c hb => ih.elifs _ _ _ (by simp) ?_
  exact mem_snoc h ⟨hc, hb⟩

theorem rules_executable (fuel : Nat) : Executables fuel := by
  induction fuel with
  | zero => constructor <;> intros <;> exact gives_error
  | succ fuel ih =>
    constructor
    · exact statements_executable ih
    · exact statement_executable ih
    · exact block_executable ih
    · exact elifs_executable ih

/-- A program that the parser accepts is a list of statements that can be executed outside of every
loop and function. -/
theorem program_executable {ts : List Token} {program : Node} (h : parse ts = .ok program) :
    ∃ body, program = .program Position.start body ∧
      ∀ s ∈ body, Node.Executable true ⟨false, false⟩ s := by
  rw [parse_eq] at h
  unfold verdict at h
  split at h
  · next body c hb =>
    split at h
    · cases h
      exact ⟨body, rfl, (rules_executable _).statements _ _ _ body c hb⟩
    · cases h
  all_goals cases h

theorem source_executable {source : String} {program : Node}
    (h : parseProgram source = .ok program) :
    ∃ body, program = .program Position.start body ∧
      ∀ s ∈ body, Node.Executable true ⟨false, false⟩ s := by
  unfold parseProgram at h
  split at h
  · exact program_executable h
  · cases h

end Offside.Parser
