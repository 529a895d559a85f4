import Offside.Proofs.Printer.Canonical
import Offside.Reference.Transformer

/-!
Trees that the evaluator has a rule for at every node. Loops and functions are told apart by the
context in which a statement may stand, as for the parser, and trees without `while` from the rest.
-/

namespace Offside

namespace Node

/-- The nodes right below a node. -/
def parts : Node → List Node
  | unaryOp _ _ a => [a]
  | binaryOp _ _ a b => [a, b]
  | call _ f as => f :: as
  | index _ t i => [t, i]
  | member _ t _ => [t]
  | listLiteral _ es => es
  | mapLiteral _ es => es.flatMap fun e => [e.1, e.2]
  | lambda _ _ b => [b]
  | exprStmt _ e => [e]
  | assign _ t v | augAssign _ t _ v => [t, v]
  | ifStmt _ bs e => (bs.flatMap fun b => b.1 :: b.2) ++ e.getD []
  | whileStmt _ c b => c :: b
  | forStmt _ _ i b => i :: b
  | functionDef _ _ _ b => b
  | returnStmt _ v => [v]
  | delete _ t => [t]
  | program _ b => b
  | hole | literal .. | identifier .. | breakStmt _ | continueStmt _ | passStmt _ => []

/-- A node stands somewhere in a tree. -/
inductive Contains : Node → Node → Prop where
  | here (n : Node) : Contains n n
  | part {n m k : Node} : m ∈ n.parts → Contains m k → Contains n k

/-- The condition holds of every node of a tree. -/
def All (P : Node → Prop) (n : Node) : Prop := ∀ m, n.Contains m → P m

section

variable {P : Node → Prop} {n m : Node}

theorem All.here (h : n.All P) : P n := h n (.here n)

theorem All.part (h : n.All P) (hm : m ∈ n.parts) : m.All P := fun k hk => h k (.part hm hk)

theorem all_of_parts (h : P n) (hparts : ∀ m ∈ n.parts, m.All P) : n.All P := by
  intro m hm
  cases hm with
  | here => exact h
  | part hk hm => exact hparts _ hk m hm

theorem pos_of_pos? {p : Place} (h : n.pos? = some p) : n.pos = p := by
  rw [pos, h, Option.getD_some]

end

def IsWhile : Node → Prop
  | whileStmt .. => True
  | _ => False

def augmentedOperators : List String := ["+", "-", "*", "/", "%"]

/-- What a node has to be for the evaluator to have a rule for it, whatever stands below it. -/
def Lawful : Node → Prop
  | lambda _ ps _ | functionDef _ _ ps _ => ps.Nodup
  | unaryOp _ op _ => ∃ o ∈ ["-", "not"], op = .string o
  | binaryOp _ op _ _ => ∃ o ∈ binaryOperators, op = .string o
  | assign _ t _ => Parser.isAssignable t = true
  | augAssign _ t op _ => Parser.isAssignable t = true ∧ ∃ o ∈ augmentedOperators, op = .string o
  | ifStmt _ bs _ => bs ≠ []
  | delete _ t => ∃ q c i, t = .index q c i
  | _ => True

/-- Expressions that can be evaluated. -/
inductive Evaluable : Node → Prop where
  | literal {p : Place} {v kind : Json} : Evaluable (.literal p v kind)
  | identifier {p : Place} {x : Json} : Evaluable (.identifier p x)
  | unaryOp {p : Place} {op : String} {a : Node} : op ∈ ["-", "not"] → Evaluable a →
      Evaluable (.unaryOp p op a)
  | binaryOp {p : Place} {op : String} {a b : Node} : op ∈ binaryOperators → Evaluable a →
      Evaluable b → Evaluable (.binaryOp p op a b)
  | call {p : Place} {f : Node} {as : List Node} : Evaluable f → (∀ a ∈ as, Evaluable a) →
      Evaluable (.call p f as)
  | index {p : Place} {t i : Node} : Evaluable t → Evaluable i → Evaluable (.index p t i)
  | member {p : Place} {t : Node} {x : Json} : Evaluable t → Evaluable (.member p t x)
  | listLiteral {p : Place} {es : List Node} : (∀ e ∈ es, Evaluable e) →
      Evaluable (.listLiteral p es)
  | mapLiteral {p : Place} {es : List (Node × Node)} : (∀ e ∈ es, Evaluable e.1) →
      (∀ e ∈ es, Evaluable e.2) → Evaluable (.mapLiteral p es)
  | lambda {p : Place} {ps : List Json} {b : Node} : ps.Nodup → Evaluable b →
      Evaluable (.lambda p ps b)

/-- Statements that can be executed where the loops and functions around them allow it. Only with
`whiles` may there be a `while` among them. -/
inductive Executable (whiles : Bool) : Parser.Context → Node → Prop where
  | exprStmt {context : Parser.Context} {p : Place} {e : Node} : Evaluable e →
      Executable whiles context (.exprStmt p e)
  | assign {context : Parser.Context} {p : Place} {t v : Node} : Evaluable t →
      Parser.isAssignable t = true → Evaluable v → Executable whiles context (.assign p t v)
  | augAssign {context : Parser.Context} {p : Place} {op : String} {t v : Node} : Evaluable t →
      Parser.isAssignable t = true → op ∈ augmentedOperators → Evaluable v →
      Executable whiles context (.augAssign p t op v)
  | ifStmt {context : Parser.Context} {p : Place} {bs : List (Node × List Node)}
      {e : Option (List Node)} : bs ≠ [] → (∀ b ∈ bs, Evaluable b.1) →
      (∀ b ∈ bs, ∀ s ∈ b.2, Executable whiles context s) →
      (∀ b ∈ e, ∀ s ∈ b, Executable whiles context s) → Executable whiles context (.ifStmt p bs e)
  | whileStmt {context : Parser.Context} {p : Place} {c : Node} {b : List Node} :
      whiles = true → Evaluable c →
      (∀ s ∈ b, Executable whiles { context with inLoop := true } s) →
      Executable whiles context (.whileStmt p c b)
  | forStmt {context : Parser.Context} {p : Place} {x : Json} {i : Node} {b : List Node} :
      Evaluable i → (∀ s ∈ b, Executable whiles { context with inLoop := true } s) →
      Executable whiles context (.forStmt p x i b)
  | functionDef {context : Parser.Context} {p : Place} {x : Json} {ps : List Json}
      {b : List Node} : ps.Nodup → (∀ s ∈ b, Executable whiles ⟨false, true⟩ s) →
      Executable whiles context (.functionDef p x ps b)
  | returnNone {context : Parser.Context} {p : Place} : context.inFunction = true →
      Executable whiles context (.returnStmt p .hole)
  | returnStmt {context : Parser.Context} {p : Place} {v : Node} : context.inFunction = true →
      Evaluable v → Executable whiles context (.returnStmt p v)
  | breakStmt {context : Parser.Context} {p : Place} : context.inLoop = true →
      Executable whiles context (.breakStmt p)
  | continueStmt {context : Parser.Context} {p : Place} : context.inLoop = true →
      Executable whiles context (.continueStmt p)
  | passStmt {context : Parser.Context} {p : Place} : Executable whiles context (.passStmt p)
  | delete {context : Parser.Context} {p q : Place} {t i : Node} : Evaluable t → Evaluable i →
      Executable whiles context (.delete p (.index q t i))

variable {whiles : Bool} {context : Parser.Context} {n m : Node}

/-! ### Every node below is lawful -/

/-- A node of an executable tree: an expression, a statement, or the missing value of a return. -/
def Sound (whiles : Bool) (n : Node) : Prop :=
  n = .hole ∨ Evaluable n ∨ ∃ context, Executable whiles context n

theorem evaluable_lawful (h : Evaluable n) : n.Lawful := by
  cases h with
  | unaryOp ho _ => exact ⟨_, ho, rfl⟩
  | binaryOp ho _ _ => exact ⟨_, ho, rfl⟩
  | lambda hps _ => exact hps
  | _ => exact True.intro

theorem executable_lawful (h : Executable whiles context n) : n.Lawful := by
  cases h with
  | assign _ ht _ => exact ht
  | augAssign _ ht ho _ => exact ⟨ht, _, ho, rfl⟩
  | ifStmt hbs _ _ _ => exact hbs
  | functionDef hps _ => exact hps
  | delete _ _ => exact ⟨_, _, _, rfl⟩
  | _ => exact True.intro

theorem sound_lawful (h : n.Sound whiles) : n.Lawful := by
  rcases h with rfl | h | ⟨_, h⟩
  · exact True.intro
  · exact evaluable_lawful h
  · exact executable_lawful h

theorem evaluable_parts (h : Evaluable n) (hm : m ∈ n.parts) : Evaluable m := by
  cases h <;> simp only [parts, List.mem_cons, List.mem_flatMap, List.not_mem_nil, or_false] at hm
  case unaryOp _ ha => exact hm ▸ ha
  case binaryOp _ ha hb => rcases hm with rfl | rfl <;> assumption
  case call hf has =>
    rcases hm with rfl | hm
    · exact hf
    · exact has m hm
  case index ht hi => rcases hm with rfl | rfl <;> assumption
  case member ht => exact hm ▸ ht
  case listLiteral hes => exact hes m hm
  case mapLiteral hks hvs =>
    obtain ⟨e, he, rfl | rfl⟩ := hm
    · exact hks e he
    · exact hvs e he
  case lambda _ hb => exact hm ▸ hb

theorem executable_parts (h : Executable whiles context n) (hm : m ∈ n.parts) :
    m.Sound whiles := by
  have hstatement {context : Parser.Context} (hm : Executable whiles context m) :
      m.Sound whiles :=
    .inr (.inr ⟨_, hm⟩)
  have hexpression (hm : Evaluable m) : m.Sound whiles := .inr (.inl hm)
  cases h <;> simp only [parts, List.mem_cons, List.mem_append, List.mem_flatMap,
    List.not_mem_nil, or_false] at hm
  case exprStmt he => exact hexpression (hm ▸ he)
  case assign ht _ hv => rcases hm with rfl | rfl <;> exact hexpression ‹_›
  case augAssign ht _ _ hv => rcases hm with rfl | rfl <;> exact hexpression ‹_›
  case ifStmt bs e _ hcs hbs he =>
    rcases hm with ⟨b, hb, rfl | hm⟩ | hm
    · exact hexpression (hcs b hb)
    · exact hstatement (hbs b hb m hm)
    · cases e with
      | none => cases hm
      | some body => exact hstatement (he body rfl m hm)
  case whileStmt _ hc hb =>
    rcases hm with rfl | hm
    · exact hexpression hc
    · exact hstatement (hb m hm)
  case forStmt hi hb =>
    rcases hm with rfl | hm
    · exact hexpression hi
    · exact hstatement (hb m hm)
  case functionDef _ hb => exact hstatement (hb m hm)
  case returnNone => exact .inl hm
  case returnStmt hv _ => exact hexpression (hm ▸ hv)
  case delete ht hi => exact hexpression (hm ▸ .index ht hi)

theorem sound_contains (h : n.Sound whiles) (hc : n.Contains m) : m.Sound whiles := by
  induction hc with
  | here => exact h
  | part hm _ ih =>
    apply ih
    rcases h with rfl | h | ⟨_, h⟩
    · cases hm
    · exact .inr (.inl (evaluable_parts h hm))
    · exact executable_parts h hm

/-! ### Nothing is misplaced -/

theorem misplacedInAll_nil {inLoop inFunction : Bool} {ns : List Node}
    (h : ∀ n ∈ ns, Reference.misplacedIn inLoop inFunction n = []) :
    Reference.misplacedInAll inLoop inFunction ns = [] := by
  induction ns with
  | nil => rfl
  | cons n ns ih =>
    rw [Reference.misplacedInAll, h n List.mem_cons_self, List.nil_append]
    exact ih fun m hm => h m (List.mem_cons_of_mem n hm)

theorem misplacedInBranches_nil {inLoop inFunction : Bool} {bs : List (Node × List Node)}
    (h : ∀ b ∈ bs, ∀ n ∈ b.2, Reference.misplacedIn inLoop inFunction n = []) :
    Reference.misplacedInBranches inLoop inFunction bs = [] := by
  induction bs with
  | nil => rfl
  | cons b bs ih =>
    rw [Reference.misplacedInBranches, misplacedInAll_nil (h b List.mem_cons_self),
      List.nil_append]
    exact ih fun c hc => h c (List.mem_cons_of_mem b hc)

theorem executable_placed (h : Executable whiles context n) :
    Reference.misplacedIn context.inLoop context.inFunction n = [] := by
  induction h with
  | ifStmt _ _ _ _ ihbs ihe =>
    rename_i e _ _ _ _
    rw [Reference.misplacedIn, misplacedInBranches_nil ihbs, List.nil_append]
    cases e with
    | none => rfl
    | some body => exact misplacedInAll_nil (ihe body rfl)
  | whileStmt _ _ _ ih | forStmt _ _ ih | functionDef _ _ ih => exact misplacedInAll_nil ih
  | returnNone h | returnStmt h _ | breakStmt h | continueStmt h =>
    rw [Reference.misplacedIn, if_pos h]
  | _ => rfl

/-- Every node of a list of statements that can be executed is sound. -/
theorem program_sound {p : Place} {body : List Node}
    (h : ∀ s ∈ body, Executable whiles context s) (hc : (program p body).Contains n) :
    n = .program p body ∨ n.Sound whiles := by
  cases hc with
  | here => exact .inl rfl
  | part hm hc => exact .inr (sound_contains (.inr (.inr ⟨_, h _ hm⟩)) hc)

/-! ### Trees without `while` -/

theorem program_without_while {p : Place} {body : List Node}
    (h : ∀ s ∈ body, Executable false context s) (hc : (program p body).Contains n) :
    ¬ n.IsWhile := by
  rcases program_sound h hc with rfl | rfl | h | ⟨_, h⟩
  · exact id
  · exact id
  · cases h <;> exact id
  · cases h with
    | whileStmt hw => cases hw
    | _ => exact id

theorem executable_without_while (h : Executable whiles context n)
    (hw : ∀ m, n.Contains m → ¬ m.IsWhile) : Executable false context n := by
  have hbelow {n m : Node} (hw : ∀ m, n.Contains m → ¬ m.IsWhile) (hm : m ∈ n.parts) :
      ∀ k, m.Contains k → ¬ k.IsWhile :=
    fun k hk => hw k (.part hm hk)
  induction h with
  | exprStmt he => exact .exprStmt he
  | assign ht ha hv => exact .assign ht ha hv
  | augAssign ht ha ho hv => exact .augAssign ht ha ho hv
  | ifStmt hbs hcs _ _ ihbs ihe =>
    refine .ifStmt hbs hcs (fun b hb s hs => ihbs b hb s hs (hbelow hw ?_))
      fun b hb s hs => ihe b hb s hs (hbelow hw ?_)
    · exact List.mem_append_left _
        (List.mem_flatMap.mpr ⟨b, hb, List.mem_cons_of_mem _ hs⟩)
    · obtain rfl := Option.mem_def.mp hb
      exact List.mem_append_right _ hs
  | whileStmt => exact absurd trivial (hw _ (.here _))
  | forStmt hi _ ih =>
    exact .forStmt hi fun s hs => ih s hs (hbelow hw (List.mem_cons_of_mem _ hs))
  | functionDef hps _ ih => exact .functionDef hps fun s hs => ih s hs (hbelow hw hs)
  | returnNone h => exact .returnNone h
  | returnStmt h hv => exact .returnStmt h hv
  | breakStmt h => exact .breakStmt h
  | continueStmt h => exact .continueStmt h
  | passStmt => exact .passStmt
  | delete ht hi => exact .delete ht hi

end Node

end Offside
