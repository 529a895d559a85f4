import Offside.Proofs.Parser.Fuel

/-!
Counting the loops and functions around a place. Whether a block is read or a rule in it fails, the
counts are afterwards what they were before, so the rules that count do what those do that are
given the place's context.
-/

namespace Offside.Parser

variable {α β : Type} {d : Depth}

/-- A rule that counts does at some counts what another one does, and leaves them as they are. -/
def Restores (d : Depth) (x : Counted α) (r : Rule α) : Prop :=
  ∀ c, x (c, d) = Counted.beside d (r c)

namespace Restores

variable {x : Counted α} {r : Rule α}

theorem lift (r : Rule α) : Restores d (Counted.lift r) r := fun _ => rfl

theorem pure (a : α) : Restores d (pure a) (pure a) := fun _ => rfl

theorem discard (hx : Restores d x r) : Restores d (discard x) (discard r) := by
  intro c
  change EStateM.map _ x (c, d) = Counted.beside d (EStateM.map _ r c)
  unfold EStateM.map
  rw [hx c]
  cases r c <;> rfl

theorem bind {f : α → Counted β} {g : α → Rule β} (hx : Restores d x r)
    (hf : ∀ a, Restores d (f a) (g a)) : Restores d (x >>= f) (r >>= g) := by
  intro c
  have hbind : (x >>= f) (c, d) = match x (c, d) with
      | .ok a s => f a s
      | .error e s => .error e s := by
    change EStateM.bind x f (c, d) = _
    unfold EStateM.bind
    cases x (c, d) <;> rfl
  rw [hbind, hx c, bind_apply]
  cases r c with
  | ok a c' => exact hf a c'
  | error e c' => rfl

theorem ite {p : Prop} [Decidable p] {y : Counted α} {s : Rule α} (hx : Restores d x r)
    (hy : Restores d y s) : Restores d (if p then x else y) (if p then r else s) := by
  split
  · exact hx
  · exact hy

end Restores

/-! ### Blocks -/

/-- What is done at the end is done also where the rule fails. -/
theorem finally_restores {d' : Depth} {x : Counted α} {r : Rule α} {tidy : Counted Unit}
    (hx : Restores d' x r) (ht : ∀ c, tidy (c, d') = .ok () (c, d)) (c : Cursor) :
    (tryFinally x tidy) (c, d') = Counted.beside d (r c) := by
  change EStateM.map Prod.fst (tryFinally' x fun _ => tidy) (c, d') = Counted.beside d (r c)
  unfold EStateM.map tryFinally' EStateM.instMonadFinally
  dsimp only
  rw [hx c]
  cases r c with
  | ok a c' =>
    unfold Counted.beside
    dsimp only
    rw [ht c']
  | error e c' =>
    unfold Counted.beside
    dsimp only
    rw [ht c']

theorem inLoop_restores {x : Counted α} {r : Rule α}
    (hx : Restores { d with loops := d.loops + 1 } x r) : Restores d (Counted.inLoop x) r := by
  intro c
  have htidy : ∀ c, (Counted.depth >>= fun d => Counted.setDepth { d with loops := d.loops - 1 })
      (c, { d with loops := d.loops + 1 }) = .ok () (c, d) := fun _ => rfl
  exact finally_restores hx htidy c

theorem inFunction_restores {x : Counted α} {r : Rule α}
    (hx : Restores ⟨0, d.functions + 1⟩ x r) : Restores d (Counted.inFunction x) r := by
  intro c
  have htidy : ∀ c, (Counted.depth >>= fun d' => Counted.setDepth ⟨d.loops, d'.functions - 1⟩)
      (c, ⟨0, d.functions + 1⟩) = .ok () (c, d) := fun _ => rfl
  exact finally_restores hx htidy c

/-- A problem is recovered from at the counts at which the statement began. -/
theorem recovering_restores {x : Counted Node} {r : Rule Node} (hx : Restores d x r) :
    Restores d (Counted.recovering x) (recovering r) := by
  intro c
  have hbefore : (some <$> x) (c, d) = Counted.beside d ((some <$> r) c) := by
    change EStateM.map some x (c, d) = Counted.beside d (EStateM.map some r c)
    unfold EStateM.map
    rw [hx c]
    cases r c <;> rfl
  change EStateM.tryCatch (some <$> x) _ (c, d) = Counted.beside d (EStateM.tryCatch (some <$> r) _ c)
  unfold EStateM.tryCatch
  rw [hbefore]
  cases (some <$> r) c with
  | ok s c' => rfl
  | error e c' => cases e <;> rfl

/-! ### Statements -/

/-- The rules for statements, with counts. -/
structure Counting (d : Depth) (fuel : Nat) : Prop where
  statements : ∀ topLevel, Restores d (Counted.statements fuel topLevel)
    (statements fuel d.context topLevel)
  statement : Restores d (Counted.statement fuel) (statement fuel d.context)
  block : ∀ header, Restores d (Counted.block fuel header) (block fuel d.context header)
  elifs : ∀ branches, Restores d (Counted.elifs fuel branches) (elifs fuel d.context branches)

variable {fuel : Nat}

theorem elifs_restores (ih : ∀ d, Counting d fuel) (branches : List (Node × List Node)) :
    Restores d (Counted.elifs (fuel + 1) branches) (elifs (fuel + 1) d.context branches) := by
  rw [Counted.elifs, elifs]
  refine .bind (.lift _) fun more => .ite ?_ (.pure _)
  refine .bind (.lift _) fun condition => .bind ((ih d).block _) fun body => ?_
  exact (ih d).elifs _

theorem block_restores (ih : ∀ d, Counting d fuel) (header : String) :
    Restores d (Counted.block (fuel + 1) header) (block (fuel + 1) d.context header) := by
  rw [Counted.block, block]
  refine .bind (.discard (.lift _)) fun _ => ?_
  refine .bind (.discard (.lift _)) fun _ => ?_
  refine .bind (.discard (.lift _)) fun _ => ?_
  refine .bind ((ih d).statements false) fun body => ?_
  exact .bind (.discard (.lift _)) fun _ => .pure _

theorem loopBody_restores (ih : ∀ d, Counting d fuel) (header : String) :
    Restores d (Counted.inLoop (Counted.block fuel header))
      (block fuel { d.context with inLoop := true } header) :=
  inLoop_restores ((ih { d with loops := d.loops + 1 }).block header)

theorem functionBody_restores (ih : ∀ d, Counting d fuel) (header : String) :
    Restores d (Counted.inFunction (Counted.block fuel header)) (block fuel ⟨false, true⟩ header) :=
  inFunction_restores ((ih ⟨0, d.functions + 1⟩).block header)

theorem statement_restores (ih : ∀ d, Counting d fuel) :
    Restores d (Counted.statement (fuel + 1)) (statement (fuel + 1) d.context) := by
  rw [Counted.statement, statement]
  refine .bind (.lift _) fun t => .ite ?_ (.ite (.lift _) (.lift _))
  split
  · refine .bind (.discard (.lift _)) fun _ => .bind (.lift _) fun condition => ?_
    refine .bind ((ih d).block _) fun body => .bind ((ih d).elifs _) fun branches => ?_
    refine .bind (.lift _) fun more => .ite ?_ (.pure _)
    exact .bind ((ih d).block _) fun elseBody => .pure _
  · refine .bind (.discard (.lift _)) fun _ => .bind (.lift _) fun condition => ?_
    exact .bind (loopBody_restores ih _) fun body => .pure _
  · refine .bind (.discard (.lift _)) fun _ => .bind (.lift _) fun name => ?_
    refine .bind (.discard (.lift _)) fun _ => .bind (.lift _) fun iterable => ?_
    exact .bind (loopBody_restores ih _) fun body => .pure _
  · refine .bind (.discard (.lift _)) fun _ => .bind (.lift _) fun name => ?_
    refine .bind (.discard (.lift _)) fun _ => .bind (.lift _) fun params => ?_
    refine .bind (.discard (.lift _)) fun _ => ?_
    exact .bind (functionBody_restores ih _) fun body => .pure _
  · exact fun _ => rfl
  · exact fun _ => rfl
  · exact fun _ => rfl
  · exact .lift _
  · exact .lift _
  · exact .lift _

theorem statements_restores (ih : ∀ d, Counting d fuel) (topLevel : Bool) :
    Restores d (Counted.statements (fuel + 1) topLevel)
      (statements (fuel + 1) d.context topLevel) := by
  rw [Counted.statements, statements]
  refine .bind (.lift _) fun _ => .bind (.lift _) fun t => .ite (.pure _) (.ite ?_ ?_)
  · refine .ite (.pure _) (.bind (.lift _) fun _ => .bind (.discard (.lift _)) fun _ => ?_)
    exact (ih d).statements topLevel
  · refine .bind (recovering_restores (ih d).statement) fun s => ?_
    cases s with
    | none => exact (ih d).statements topLevel
    | some s => exact .bind ((ih d).statements topLevel) fun rest => .pure _

theorem counting (d : Depth) (fuel : Nat) : Counting d fuel := by
  induction fuel generalizing d with
  | zero => constructor <;> intros <;> intro c <;> rfl
  | succ fuel ih =>
    exact ⟨statements_restores ih, statement_restores ih, block_restores ih, elifs_restores ih⟩

/-- What comes of the statements that were read from a whole list. -/
def verdict : Outcome (List Node) → Except ReadError Node
  | .ok body c =>
    if c.errors.isEmpty then .ok (.program Position.start body) else .error (.parse c.errors)
  | .error (.problem e) c => .error (.parse (c.errors ++ [e]))
  | .error (.fault f) _ => .error (.fault f)
  | .error .starved c => .error (.parse c.errors)

/-- A program is read with nothing around it. -/
theorem parse_eq (ts : List Token) : parse ts =
    verdict (statements (fuelFor ts) ⟨false, false⟩ true (Cursor.ofTokens ts)) := by
  have h : Counted.statements (fuelFor ts) true (Cursor.ofTokens ts, ⟨0, 0⟩) =
      Counted.beside ⟨0, 0⟩ (statements (fuelFor ts) ⟨false, false⟩ true (Cursor.ofTokens ts)) :=
    (counting ⟨0, 0⟩ (fuelFor ts)).statements true (Cursor.ofTokens ts)
  unfold parse
  rw [h]
  cases statements (fuelFor ts) ⟨false, false⟩ true (Cursor.ofTokens ts) with
  | ok body c => rfl
  | error e c => cases e <;> rfl

end Offside.Parser
