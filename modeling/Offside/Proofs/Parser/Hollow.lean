import Offside.Proofs.Lexer.FormFeed
import Offside.Proofs.Parser.Accepted
import Offside.Proofs.Parser.Executable

/-!
Bodies without a statement. A block of the parser ends at its DEDENT, whether or not a statement
stands before it, so that a body of an accepted program is empty exactly where nothing but ends of
lines stands between an INDENT and a DEDENT. The lexer gives such tokens for lines of white space
that begin with a form feed, and for no other.
-/

namespace Offside

namespace Node

/-- The lists of statements right below a node that are blocks. -/
def bodies : Node → List (List Node)
  | ifStmt _ bs e => bs.map Prod.snd ++ e.toList
  | whileStmt _ _ b | forStmt _ _ _ b | functionDef _ _ _ b => [b]
  | _ => []

/-- A body without a statement stands somewhere in a tree. -/
def HasEmptyBody (n : Node) : Prop := ∃ m, n.Contains m ∧ [] ∈ m.bodies

/-- A block without a statement, or with one that has such a block. -/
def EmptyBlock (b : List Node) : Prop := b = [] ∨ ∃ s ∈ b, s.HasEmptyBody

variable {n : Node} {p : Place} {b : List Node}

theorem hasEmptyBody_iff : n.HasEmptyBody ↔ [] ∈ n.bodies ∨ ∃ m ∈ n.parts, m.HasEmptyBody := by
  constructor
  · rintro ⟨m, hm, hempty⟩
    cases hm with
    | here => exact .inl hempty
    | part hk hm => exact .inr ⟨_, hk, m, hm, hempty⟩
  · rintro (hempty | ⟨k, hk, m, hm, hempty⟩)
    · exact ⟨n, .here n, hempty⟩
    · exact ⟨m, .part hk hm, hempty⟩

theorem Evaluable.not_empty (h : n.Evaluable) : ¬ n.HasEmptyBody := by
  rintro ⟨m, hm, hempty⟩
  induction hm with
  | here => cases h <;> exact absurd hempty List.not_mem_nil
  | part hk _ ih => exact ih (evaluable_parts h hk) hempty

theorem hole_not_empty : ¬ hole.HasEmptyBody := by
  rw [hasEmptyBody_iff]
  rintro (hempty | ⟨m, hm, -⟩)
  · cases hempty
  · cases hm

/-- A statement without bodies has none below it. -/
theorem Executable.not_empty {whiles : Bool} {context : Parser.Context}
    (h : Executable whiles context n) (hbodies : n.bodies = []) : ¬ n.HasEmptyBody := by
  rw [hasEmptyBody_iff, hbodies]
  rintro (hempty | ⟨m, hm, hempty⟩)
  · cases hempty
  have hevaluable (he : m.Evaluable) : False := he.not_empty hempty
  cases h <;> simp only [parts, List.mem_cons, List.not_mem_nil, or_false] at hm
  case exprStmt he => exact hevaluable (hm ▸ he)
  case assign ht _ hv => rcases hm with rfl | rfl <;> exact hevaluable ‹_›
  case augAssign ht _ _ hv => rcases hm with rfl | rfl <;> exact hevaluable ‹_›
  case ifStmt bs e hbs _ _ _ => exact hbs (List.map_eq_nil_iff.mp (List.append_eq_nil_iff.mp hbodies).1)
  case whileStmt | forStmt | functionDef => cases hbodies
  case returnNone => exact hole_not_empty (hm ▸ hempty)
  case returnStmt hv _ => exact hevaluable (hm ▸ hv)
  case delete ht hi => exact hevaluable (hm ▸ .index ht hi)

/-- A statement with an expression and a body. -/
theorem body_empty {e : Node} (hbodies : n.bodies = [b]) (hparts : n.parts = e :: b)
    (he : e.Evaluable) : n.HasEmptyBody ↔ EmptyBlock b := by
  rw [hasEmptyBody_iff, hbodies, hparts, List.mem_singleton]
  simp only [List.mem_cons, exists_eq_or_imp, he.not_empty, false_or]
  exact or_congr_left eq_comm

theorem functionDef_empty {x : Json} {ps : List Json} :
    (functionDef p x ps b).HasEmptyBody ↔ EmptyBlock b := by
  rw [hasEmptyBody_iff]
  exact or_congr_left ((List.mem_singleton).trans eq_comm)

theorem ifStmt_empty {bs : List (Node × List Node)} {e : Option (List Node)}
    (hbs : ∀ b ∈ bs, b.1.Evaluable) :
    (ifStmt p bs e).HasEmptyBody ↔ (∃ b ∈ bs, EmptyBlock b.2) ∨ ∃ b ∈ e, EmptyBlock b := by
  rw [hasEmptyBody_iff]
  simp only [bodies, parts, List.mem_append, List.mem_map, List.mem_flatMap, List.mem_cons,
    Option.mem_toList]
  constructor
  · rintro ((⟨b, hb, hempty⟩ | hempty) | ⟨m, ⟨b, hb, rfl | hm⟩ | hm, hempty⟩)
    · exact .inl ⟨b, hb, .inl hempty⟩
    · exact .inr ⟨[], hempty, .inl rfl⟩
    · exact absurd hempty (hbs b hb).not_empty
    · exact .inl ⟨b, hb, .inr ⟨m, hm, hempty⟩⟩
    · cases e with
      | none => cases hm
      | some body => exact .inr ⟨body, rfl, .inr ⟨m, hm, hempty⟩⟩
  · rintro (⟨b, hb, hempty | ⟨m, hm, hempty⟩⟩ | ⟨b, hb, rfl | ⟨m, hm, hempty⟩⟩)
    · exact .inl (.inl ⟨b, hb, hempty⟩)
    · exact .inr ⟨m, .inl ⟨b, hb, .inr hm⟩, hempty⟩
    · exact .inl (.inr hb)
    · refine .inr ⟨m, .inr ?_, hempty⟩
      rwa [Option.mem_def.mp hb]

theorem program_empty : (program p b).HasEmptyBody ↔ ∃ s ∈ b, s.HasEmptyBody := by
  rw [hasEmptyBody_iff]
  simp [bodies, parts]

end Node

open Node

/-- A DEDENT comes with nothing but ends of lines since an INDENT; where `bare` holds, an INDENT has
just been passed. -/
def Hollow : Bool → List Token → Prop
  | _, [] => False
  | bare, t :: ts =>
    match t.kind with
    | .indent => Hollow true ts
    | .newline => Hollow bare ts
    | .dedent => bare = true ∨ Hollow false ts
    | _ => Hollow false ts

section

variable {bare : Bool} {t : Token} {ts us : List Token}

/-- The token decides whether an INDENT has just been passed. -/
theorem hollow_cons : Hollow bare (t :: ts) ↔ (t.kind = .dedent ∧ bare = true) ∨
    Hollow (decide (t.kind = .indent ∨ t.kind = .newline ∧ bare = true)) ts := by
  rw [Hollow]
  cases t.kind <;> simp

theorem hollow_line (hk : t.kind.OfLine) : Hollow bare (t :: ts) ↔ Hollow false ts := by
  rw [hollow_cons]
  cases h : t.kind <;> rw [h] at hk <;> first | exact hk.elim | simp

theorem hollow_newline (hk : t.kind = .newline) : Hollow bare (t :: ts) ↔ Hollow bare ts := by
  simp [hollow_cons, hk]

theorem hollow_indent (hk : t.kind = .indent) : Hollow bare (t :: ts) ↔ Hollow true ts := by
  simp [hollow_cons, hk]

theorem hollow_dedent (hk : t.kind = .dedent) :
    Hollow bare (t :: ts) ↔ bare = true ∨ Hollow false ts := by
  simp [hollow_cons, hk]

theorem hollow_newlines (h : ∀ t ∈ us, t.kind = .newline) :
    Hollow bare (us ++ ts) ↔ Hollow bare ts := by
  induction us with
  | nil => exact Iff.rfl
  | cons u us ih =>
    obtain ⟨hu, hus⟩ := List.forall_mem_cons.mp h
    rw [List.cons_append, hollow_newline hu, ih hus]

theorem hollow_concat (hk : t.kind = .stop) : Hollow bare (us ++ [t]) ↔ Hollow bare us := by
  induction us generalizing bare with
  | nil =>
    rw [List.nil_append, hollow_cons]
    simp [Hollow, hk]
  | cons u us ih => rw [List.cons_append, hollow_cons, hollow_cons, ih]

theorem hollow_mono (h : Hollow false ts) : Hollow bare ts := by
  induction ts generalizing bare with
  | nil => exact h
  | cons t ts ih =>
    rw [hollow_cons] at h ⊢
    have h := h.resolve_left fun h => Bool.false_ne_true h.2
    by_cases hindent : t.kind = .indent
    · exact .inr (by simpa [hindent] using h)
    · exact .inr (ih (by simpa [hindent] using h))

theorem hollow_behind (front : List Token) (h : Hollow false ts) : Hollow bare (front ++ ts) := by
  induction front generalizing bare with
  | nil => exact hollow_mono h
  | cons t front ih =>
    rw [List.cons_append, hollow_cons]
    exact .inr ih

/-- Only ends of lines, and a DEDENT. -/
def Bare (ts : List Token) : Prop :=
  ∃ lines dedent rest, ts = lines ++ dedent :: rest ∧ (∀ t ∈ lines, t.kind = .newline) ∧
    dedent.kind = .dedent

theorem Bare.hollow (h : Bare ts) : Hollow true ts := by
  obtain ⟨lines, dedent, rest, rfl, hlines, hdedent⟩ := h
  rw [hollow_newlines hlines, hollow_dedent hdedent]
  exact .inl rfl

/-- What is bare stands behind an INDENT, unless one has just been passed. -/
theorem hollow_bare (h : Hollow bare ts) : (bare = true ∧ Bare ts) ∨
    ∃ front indent rest, ts = front ++ indent :: rest ∧ indent.kind = .indent ∧ Bare rest := by
  induction ts generalizing bare with
  | nil => exact h.elim
  | cons t ts ih =>
    rcases hollow_cons.mp h with ⟨hk, hb⟩ | h
    · exact .inl ⟨hb, [], t, ts, rfl, List.forall_mem_nil _, hk⟩
    · rcases ih h with ⟨hk, hbare⟩ | h
      · rcases of_decide_eq_true hk with hk | ⟨hk, hb⟩
        · exact .inr ⟨[], t, ts, rfl, hk, hbare⟩
        · obtain ⟨lines, dedent, rest, rfl, hlines, hdedent⟩ := hbare
          exact .inl ⟨hb, t :: lines, dedent, rest, rfl, List.forall_mem_cons.mpr ⟨hk, hlines⟩,
            hdedent⟩
      · obtain ⟨front, indent, rest, rfl, hindent, hrest⟩ := h
        exact .inr ⟨t :: front, indent, rest, rfl, hindent, hrest⟩

theorem hollow_iff : Hollow false ts ↔
    ∃ front indent rest, ts = front ++ indent :: rest ∧ indent.kind = .indent ∧ Bare rest := by
  constructor
  · exact fun h => (hollow_bare h).resolve_left fun h => Bool.false_ne_true h.1
  · rintro ⟨front, indent, rest, rfl, hindent, hrest⟩
    exact hollow_behind front ((hollow_indent hindent).mpr hrest.hollow)

end

/-! ### The rules -/

namespace Parser

variable {ts : List Token} {c c' : Cursor} {n fuel : Nat} {bare : Bool} {context : Context}

theorem next_cons (hc : c.Clean ts n) (hk : c.next.kind ≠ .stop) :
    c.rest = c.next :: (c.skip 1).rest := by
  obtain ⟨rest, hrest⟩ := hc.toSound.next_cons hk
  rw [Cursor.skip_rest, hrest]
  rfl

theorem hollow_skip (hc : c.Clean ts n) (hk : c.next.kind.OfLine) :
    Hollow bare c.rest ↔ Hollow false (c.skip 1).rest := by
  rw [next_cons hc (fun hstop => by rw [hstop] at hk; exact hk), hollow_line hk]

theorem hollow_along (h : Along c c') : Hollow false c.rest ↔ Hollow false c'.rest := by
  obtain ⟨u, hu, hline⟩ := h
  rw [hu.rest]
  clear hu
  induction u with
  | nil => exact Iff.rfl
  | cons t u ih =>
    obtain ⟨ht, hline⟩ := List.forall_mem_cons.mp hline
    rw [List.cons_append, hollow_line ht, ih hline]

/-- A statement of one line has no tokens of the layout but its end. -/
theorem hollow_endsLine {r : Outcome Node} {s : Node} (hc : c.Clean ts n)
    (hk : c.next.kind.OfLine) (h : EndsLine ts c r) (hr : r = .ok s c') :
    Hollow bare c.rest ↔ Hollow false c'.rest := by
  rw [hr] at h
  obtain ⟨c₁, halong, hn, rfl⟩ := h
  have hend := next_cons (hc.of_along halong) (by simp [hn])
  rw [hollow_skip hc hk, ← hollow_skip hc hk, hollow_along halong, hend, hollow_newline hn]

theorem simpleStatement_bodies (c : Cursor) :
    Gives (fun s => s.bodies = []) (simpleStatement fuel c) := by
  rw [simpleStatement_apply]
  refine gives_then fun e c => ?_
  rw [simpleTail_apply]
  refine gives_ite (fun _ => gives_ite (fun _ => ?_) fun _ => gives_error) fun _ => ?_
  · refine gives_then fun value c => gives_then fun _ c => gives_ok ?_
    unfold assignment
    split <;> rfl
  · exact gives_then fun _ c => gives_ok rfl

theorem returnStatement_bodies (context : Context) (c : Cursor) :
    Gives (fun s => s.bodies = []) (returnStatement fuel context c) := by
  rw [returnStatement_apply]
  refine gives_ite (fun _ => gives_ite (fun _ => ?_) fun _ => ?_) fun _ => gives_error
  · exact gives_then fun _ c => gives_ok rfl
  · exact gives_then fun _ c => gives_then fun _ c => gives_ok rfl

theorem deleteStatement_bodies (c : Cursor) :
    Gives (fun s => s.bodies = []) (deleteStatement fuel c) := by
  rw [deleteStatement_apply]
  refine gives_then fun target c => ?_
  cases target
  case index => exact gives_then fun _ c => gives_ok rfl
  all_goals exact gives_error

theorem loopStatement_bodies {build : Place → Node} (context : Context) (c : Cursor)
    (hbodies : ∀ p, (build p).bodies = []) :
    Gives (fun s => s.bodies = []) (loopStatement context build c) := by
  rw [loopStatement_apply]
  exact gives_ite (fun _ => gives_then fun _ c => gives_ok (hbodies _)) fun _ => gives_error

theorem passStatement_bodies (c : Cursor) : Gives (fun s => s.bodies = []) (passStatement c) := by
  rw [passStatement_apply]
  exact gives_then fun _ c => gives_ok rfl

/-- The rules for statements leave what is hollow to their blocks. -/
structure Hollows (ts : List Token) (fuel : Nat) : Prop where
  statements : ∀ {n context topLevel c ss c'}, c.Clean ts n → (topLevel = true ↔ n = 0) →
    statements fuel context topLevel c = .ok ss c' → c'.errors = [] → ∀ bare,
    (Hollow bare c.rest ↔ (∃ s ∈ ss, s.HasEmptyBody) ∨ Hollow (bare && ss.isEmpty) c'.rest)
  statement : ∀ {n context c s c'}, c.Clean ts n → c.next.kind.OfLine →
    statement fuel context c = .ok s c' → c'.errors = [] → ∀ bare,
    (Hollow bare c.rest ↔ s.HasEmptyBody ∨ Hollow false c'.rest)
  block : ∀ {n context header c body c'}, c.Clean ts n →
    block fuel context header c = .ok body c' → c'.errors = [] →
    (Hollow false c.rest ↔ EmptyBlock body ∨ Hollow false c'.rest)
  elifs : ∀ {n context branches c bs c'}, c.Clean ts n →
    elifs fuel context branches c = .ok bs c' → c'.errors = [] →
    ∃ more, bs = branches ++ more ∧ (∀ b ∈ more, b.1.Evaluable) ∧
      (Hollow false c.rest ↔ (∃ b ∈ more, EmptyBlock b.2) ∨ Hollow false c'.rest)

theorem afterNewlines_hollow (c : Cursor) : Hollow bare c.rest ↔ Hollow bare c.afterNewlines.rest := by
  have hsplit : c.rest = c.rest.takeWhile (·.kind == .newline) ++ c.afterNewlines.rest :=
    List.takeWhile_append_dropWhile.symm
  rw [hsplit]
  refine hollow_newlines fun t ht => ?_
  simpa using List.mem_takeWhile_imp ht

theorem statements_hollow (ih : Hollows ts fuel) {topLevel : Bool} {ss : List Node}
    (hc : c.Clean ts n) (htop : topLevel = true ↔ n = 0)
    (h : statements (fuel + 1) context topLevel c = .ok ss c') (he : c'.errors = [])
    (bare : Bool) :
    Hollow bare c.rest ↔ (∃ s ∈ ss, s.HasEmptyBody) ∨ Hollow (bare && ss.isEmpty) c'.rest := by
  rw [afterNewlines_hollow]
  rcases statements_accepted hc.toSound htop h he with
    ⟨rfl, rfl⟩ | ⟨s, d, rest, hk, hs, hd, hrest, rfl⟩
  · simp
  · rw [ih.statement hc.afterNewlines hk hs hd.none bare, ih.statements hd htop hrest he false]
    simp [or_assoc]

theorem block_hollow (ih : Hollows ts fuel) {header : String} {body : List Node}
    (hc : c.Clean ts n) (h : block (fuel + 1) context header c = .ok body c')
    (he : c'.errors = []) : Hollow false c.rest ↔ EmptyBlock body ∨ Hollow false c'.rest := by
  obtain ⟨hcolon, hline, hindent, hbegin, d, hbody, hd, hdedent, rfl⟩ := block_accepted hc h he
  have hc₁ := hc.skip_is hcolon trivial
  have hc₂ := hc₁.skip_newline hline
  rw [hollow_skip hc ((is_iff.mp hcolon).1 ▸ trivial), next_cons hc₁ (by simp [hline]),
    hollow_newline hline, next_cons hc₂ (by simp [hindent]), hollow_indent hindent,
    ih.statements hbegin (by simp) hbody he true, next_cons hd (by simp [hdedent]),
    hollow_dedent hdedent, EmptyBlock]
  cases body <;> simp [or_comm]

theorem elifs_hollow (ih : Hollows ts fuel) {branches bs : List (Node × List Node)}
    (hc : c.Clean ts n) (h : elifs (fuel + 1) context branches c = .ok bs c')
    (he : c'.errors = []) : ∃ more, bs = branches ++ more ∧ (∀ b ∈ more, b.1.Evaluable) ∧
      (Hollow false c.rest ↔ (∃ b ∈ more, EmptyBlock b.2) ∨ Hollow false c'.rest) := by
  rcases elifs_accepted hc h he with ⟨-, rfl, rfl⟩ |
    ⟨hn, hc₁, condition, body, c₂, c₃, hcondition, hc₂, hbody, hc₃, hmore⟩
  · exact ⟨[], by simp, List.forall_mem_nil _, by simp⟩
  · obtain ⟨more, rfl, hevaluable, hhollow⟩ := ih.elifs hc₃ hmore he
    have hcond := expression_evaluable _ _ _ _ _ hcondition
    refine ⟨(condition, body) :: more, by simp, List.forall_mem_cons.mpr ⟨hcond, hevaluable⟩, ?_⟩
    rw [hollow_skip hc ((is_iff.mp hn).1 ▸ trivial),
      hollow_along (expression_along hc₁.toIn hcondition), ih.block hc₂ hbody hc₃.none, hhollow]
    simp [or_assoc]

/-! ### Statements -/

/-- A statement keeps what is hollow in its blocks. -/
def KeepsHollow (bare : Bool) (c : Cursor) (r : Outcome Node) : Prop :=
  ∀ s c', r = .ok s c' → c'.errors = [] →
    (Hollow bare c.rest ↔ s.HasEmptyBody ∨ Hollow false c'.rest)

theorem keepsHollow_line {r : Outcome Node} (hc : c.Clean ts n) (hk : c.next.kind.OfLine)
    (hends : EndsLine ts c r) (hexec : Gives (Executable true context) r)
    (hbodies : Gives (fun s => s.bodies = []) r) : KeepsHollow bare c r := by
  intro s c' hr _
  have hnot := (hexec s c' hr).not_empty (hbodies s c' hr)
  rw [hollow_endsLine hc hk hends hr]
  simp [hnot]

theorem keepsHollow_either {p : Prop} [Decidable p] {x y : Rule Node}
    (h : KeepsHollow bare c (x c)) (k : KeepsHollow bare c (y c)) :
    KeepsHollow bare c ((if p then x else y) c) := by
  split
  · exact h
  · exact k

theorem keepsHollow_word {x : Rule Node} (hc : c.Clean ts n) (hk : c.next.kind.OfLine)
    (hx : (c.skip 1).Clean ts n → KeepsHollow false (c.skip 1) (x (c.skip 1))) :
    KeepsHollow bare c ((discard advance >>= fun _ => x) c) := by
  intro s c' hr he
  rw [hollow_skip hc hk]
  exact hx (hc.skip_line hk) s c' hr he

theorem ifTail_hollow (ih : Hollows ts fuel) {pos : Position} (hc : c.Clean ts n) :
    KeepsHollow false c (ifTail fuel context pos c) := by
  intro s c' h he
  obtain ⟨condition, body, branches, c₁, c₂, c₃, hcondition, hc₁, hbody, hc₂, hbranches, hc₃,
    hlast⟩ := ifTail_accepted hc h he
  obtain ⟨more, rfl, hmore, hhollow⟩ := ih.elifs hc₂ hbranches hc₃.none
  have hevaluable : ∀ b ∈ [(condition, body)] ++ more, b.1.Evaluable :=
    List.forall_mem_cons.mpr ⟨expression_evaluable _ _ _ _ _ hcondition, hmore⟩
  rw [hollow_along (expression_along hc.toIn hcondition), ih.block hc₁ hbody hc₂.none, hhollow]
  rcases hlast with ⟨-, rfl, rfl⟩ | ⟨hn, hc₄, others, hothers, rfl⟩
  · rw [ifStmt_empty hevaluable]
    simp [or_assoc]
  · rw [ifStmt_empty hevaluable, hollow_skip hc₃ ((is_iff.mp hn).1 ▸ trivial),
      ih.block hc₄ hothers he]
    simp [or_assoc]

theorem whileTail_hollow (ih : Hollows ts fuel) {pos : Position} (hc : c.Clean ts n) :
    KeepsHollow false c (whileTail fuel context pos c) := by
  intro s c' h he
  obtain ⟨condition, body, c₁, hcondition, hc₁, hbody, rfl⟩ := whileTail_accepted hc h
  have hevaluable := expression_evaluable _ _ _ _ _ hcondition
  rw [hollow_along (expression_along hc.toIn hcondition), ih.block hc₁ hbody he,
    body_empty rfl rfl hevaluable]

theorem forTail_hollow (ih : Hollows ts fuel) {pos : Position} (hc : c.Clean ts n) :
    KeepsHollow false c (forTail fuel context pos c) := by
  intro s c' h he
  obtain ⟨hname, hin, hbegin, iterable, body, c₁, hiterable, hc₁, hbody, rfl⟩ :=
    forTail_accepted hc h
  have hevaluable := expression_evaluable _ _ _ _ _ hiterable
  rw [hollow_skip hc (hname ▸ trivial),
    hollow_skip (hc.skip_line (hname ▸ trivial)) ((is_iff.mp hin).1 ▸ trivial),
    hollow_along (expression_along hbegin.toIn hiterable), ih.block hc₁ hbody he,
    body_empty rfl rfl hevaluable]

theorem defTail_hollow (ih : Hollows ts fuel) {pos : Position} (hc : c.Clean ts n) :
    KeepsHollow false c (defTail fuel pos c) := by
  intro s c' h he
  obtain ⟨hname, hopen, hbegin, params, body, c₁, hparams, hc₁, hclose, hc₂, hbody, rfl⟩ :=
    defTail_accepted hc h
  rw [hollow_skip hc (hname ▸ trivial),
    hollow_skip (hc.skip_line (hname ▸ trivial)) ((is_iff.mp hopen).1 ▸ trivial),
    hollow_along (parameters_along hbegin.toIn (by decide) hparams),
    hollow_skip hc₁ ((is_iff.mp hclose).1 ▸ trivial), ih.block hc₂ hbody he, functionDef_empty]

theorem statement_hollow (ih : Hollows ts fuel) (hc : c.Clean ts n) (hk : c.next.kind.OfLine)
    (bare : Bool) : KeepsHollow bare c (statement (fuel + 1) context c) := by
  have hsimple : KeepsHollow bare c (simpleStatement fuel c) :=
    keepsHollow_line hc hk (simpleStatement_endsLine fuel hc.toIn)
      (simpleStatement_executable fuel context c) (simpleStatement_bodies c)
  have hloop {build : Place → Node} (hbodies : ∀ p, (build p).bodies = [])
      (hexec : ∀ p, context.inLoop = true → (build p).Executable true context) :
      KeepsHollow bare c (loopStatement context build c) :=
    keepsHollow_line hc hk (loopStatement_endsLine context build hc.toIn hk)
      (loopStatement_executable context c hexec) (loopStatement_bodies context c hbodies)
  rw [statement_succ]
  by_cases hword : c.next.kind = .keyword
  · rw [if_pos hword]
    unfold wordRule
    apply keepsHollow_either (keepsHollow_word hc hk (ifTail_hollow ih))
    apply keepsHollow_either (keepsHollow_word hc hk (whileTail_hollow ih))
    apply keepsHollow_either (keepsHollow_word hc hk (forTail_hollow ih))
    apply keepsHollow_either (keepsHollow_word hc hk (defTail_hollow ih))
    apply keepsHollow_either
    · exact keepsHollow_line hc hk (returnStatement_endsLine fuel context hc.toIn hk)
        (returnStatement_executable fuel context c) (returnStatement_bodies context c)
    apply keepsHollow_either (hloop (fun _ => rfl) fun _ h => .breakStmt h)
    apply keepsHollow_either (hloop (fun _ => rfl) fun _ h => .continueStmt h)
    apply keepsHollow_either
    · exact keepsHollow_line hc hk (passStatement_endsLine hc.toIn hk)
        (passStatement_executable context c) (passStatement_bodies c)
    apply keepsHollow_either
    · exact keepsHollow_line hc hk (deleteStatement_endsLine fuel hc.toIn hk)
        (deleteStatement_executable fuel context c) (deleteStatement_bodies c)
    · exact hsimple
  · have hindent : c.next.kind ≠ .indent := fun h => by
      rw [h] at hk
      exact hk
    rw [if_neg hword, if_neg hindent]
    exact hsimple

theorem hollows (ts : List Token) (fuel : Nat) : Hollows ts fuel := by
  induction fuel with
  | zero => constructor <;> intros <;> contradiction
  | succ fuel ih =>
    exact ⟨fun hc htop h he => statements_hollow ih hc htop h he,
      fun hc hk h he bare => statement_hollow ih hc hk bare _ _ h he,
      fun hc h he => block_hollow ih hc h he, fun hc h he => elifs_hollow ih hc h he⟩

end Parser

open Offside.Parser Lexer

variable {source : String} {program : Node} {ts : List Token}

/-- The tokens show whether a program has a body without a statement. -/
theorem program_hollow (h : parseProgram source = .ok program) :
    ∃ ts, tokenize source = .ok ts ∧ (program.HasEmptyBody ↔ Hollow false ts) := by
  obtain ⟨ts, body, c, hts, rfl, hbody, hnone⟩ := accepted_statements h
  refine ⟨ts, hts, ?_⟩
  have hstart := source_clean hts
  have hend := (statements_clean hstart.toSound (by simp) hbody hnone).2
  have hempty : c.rest = [] := by
    have hstop := statements_end hbody
    rcases hrest : c.rest with _ | ⟨t, rest⟩
    · rfl
    · rw [Cursor.next, hrest] at hstop
      exact absurd hstop (hend.inner t (by simp [hrest]))
  have hall := (hollows ts _).statements hstart (by simp) hbody hnone false
  obtain ⟨front, stop, rfl, hstop, -⟩ := tokenize_nested hts
  rw [ofTokens_concat hstop, hempty] at hall
  rw [program_empty, hollow_concat hstop, hall]
  simp [Hollow]

/-- A body of an accepted program is empty exactly where an INDENT is followed by a DEDENT with
nothing but ends of lines between, and there is one at least; each ends an indented line of white
space that begins with a form feed. -/
theorem empty_body_iff (h : parseProgram source = .ok program) :
    ∃ ts, tokenize source = .ok ts ∧ (program.HasEmptyBody ↔
      ∃ front indent lines dedent rest, ts = front ++ indent :: (lines ++ dedent :: rest) ∧
        indent.kind = .indent ∧ dedent.kind = .dedent ∧ lines ≠ [] ∧
        ∀ t ∈ lines, t.kind = .newline ∧
          ∃ lead, lead ≠ [] ∧ FeedLine source.toList ts lead t.pos) := by
  obtain ⟨ts, hts, hhollow⟩ := program_hollow h
  refine ⟨ts, hts, ?_⟩
  rw [hhollow, hollow_iff]
  constructor
  · rintro ⟨front, indent, rest, hsplit, hindent, lines, dedent, back, rfl, hlines, hdedent⟩
    refine ⟨front, indent, lines, dedent, back, hsplit, hindent, hdedent, ?_, ?_⟩
    · rintro rfl
      exact indent_not_closed hts hsplit hindent hdedent
    · exact fun t ht => ⟨hlines t ht, block_feedLine hts hsplit hindent hlines t ht⟩
  · rintro ⟨front, indent, lines, dedent, rest, hsplit, hindent, hdedent, -, hlines⟩
    exact ⟨front, indent, _, hsplit, hindent, lines, dedent, rest, rfl,
      fun t ht => (hlines t ht).1, hdedent⟩

/-- A condition whose block is white space, with a form feed in it. -/
def emptied : Node :=
  .program Position.start [.ifStmt (Place.ofPosition ⟨1, 1⟩)
    [(.literal (Place.ofPosition ⟨1, 4⟩) (.boolean true) "Boolean", [])] none]

theorem emptied_hasEmptyBody : emptied.HasEmptyBody :=
  ⟨_, .part List.mem_cons_self (.here _), List.mem_cons_self⟩

theorem form_feed_empties_body :
    ∃ program, parseProgram "if true:\n    \x0c\n" = .ok program ∧ program.HasEmptyBody :=
  ⟨emptied, by cbv, emptied_hasEmptyBody⟩

theorem emptied_lines :
    parseProgram "if true:\n    \x0c\n" = .ok emptied ∧
      ∃ ts front indent lines dedent rest, tokenize "if true:\n    \x0c\n" = .ok ts ∧
        ts = front ++ indent :: (lines ++ dedent :: rest) ∧ indent.kind = .indent ∧
        dedent.kind = .dedent ∧ lines ≠ [] ∧ ∀ t ∈ lines, t.kind = .newline ∧
          ∃ lead, lead ≠ [] ∧ FeedLine "if true:\n    \x0c\n".toList ts lead t.pos := by
  have h : parseProgram "if true:\n    \x0c\n" = .ok emptied := by cbv
  obtain ⟨ts, hts, hlines⟩ := empty_body_iff h
  obtain ⟨front, indent, lines, dedent, rest, hsplit⟩ := hlines.mp emptied_hasEmptyBody
  exact ⟨h, ts, front, indent, lines, dedent, rest, hts, hsplit⟩

end Offside
